import Equinox.Foundation.Sums
import Equinox.Market.Outcome
import Equinox.Market.Prepared
import Equinox.Market.Steps

/-! # The orders of a market

What holds of the resting orders in every reachable state: both books are well
formed, every order is valid on its side, and no two orders were placed with one
sequence. An accepted order uses the first makers of the other side and may leave
an order of its own; a cancellation removes one order.
-/

namespace Equinox

open Foundation CritBit PagedBookV3 Multiset Market V3MatchPlan

variable {m m' : Market} {ctx : Context} {order : PlaceOrderData} {actions i : ℕ} {oracle : I64}
  {behavior : SelfTradeBehavior} {prepared : PreparedOrder} {uses : List (Maker × Use)}
  {side : Side} {tree : TreeKind} {leaf : LeafNode} {r : Resting}

def Market.orders (m : Market) (side : Side) : Multiset Resting := (m.books side).contents

/-- Rolling a core back loses its order sequence together with its configuration, after which no
order is accepted. -/
structure Market.Valid (m : Market) : Prop where
  wellFormed : ∀ side, (m.books side).WellFormed
  resting : ∀ side, ∀ r ∈ m.orders side, r.Valid side
  distinct : ((m.orders .bid + m.orders .ask).map fun r => r.leaf.sequence).Nodup
  below : m.core.riskConfigVersion = v3RiskConfigVersion →
    ∀ side, ∀ r ∈ m.orders side, r.leaf.sequence ≤ m.core.globalOrderSequence

theorem Market.Valid.distinctSequences (h : m.Valid) (side : Side) :
    (m.books side).DistinctSequences := by
  have hnd := h.distinct
  rw [map_add, nodup_add] at hnd
  rw [distinctSequences_iff]
  cases side with
  | bid => exact hnd.1
  | ask => exact hnd.2.1

theorem Market.orders_add (m : Market) (side : Side) :
    m.orders side + m.orders side.opposite = m.orders .bid + m.orders .ask := by
  cases side with
  | bid => rfl
  | ask => exact add_comm _ _

theorem Side.eq_or_eq_opposite (side s : Side) : s = side ∨ s = side.opposite := by
  cases side <;> cases s <;> simp [opposite]

theorem Market.Valid.of_books_eq (hm : m.Valid) (hb : m'.books = m.books)
    (hc : m'.core.riskConfigVersion = v3RiskConfigVersion →
      m.core.riskConfigVersion = v3RiskConfigVersion ∧
        m'.core.globalOrderSequence = m.core.globalOrderSequence) : m'.Valid := by
  have ho (side : Side) : m'.orders side = m.orders side := by rw [orders, hb]; rfl
  constructor
  · intro side
    rw [hb]
    exact hm.wellFormed side
  · intro side r hr
    exact hm.resting side r (ho side ▸ hr)
  · rw [ho, ho]
    exact hm.distinct
  · intro hv side r hr
    obtain ⟨hv, hs⟩ := hc hv
    rw [hs]
    exact hm.below hv side r (ho side ▸ hr)

/-! ## Accepted orders -/

/-- An accepted order and the makers it uses. -/
structure Market.Placed (ctx : Context) (order : PlaceOrderData) (actions : ℕ) (oracle : I64)
    (behavior : SelfTradeBehavior) (prepared : PreparedOrder) (uses : List (Maker × Use))
    (m m' : Market) : Prop where
  prepared_eq : prepareOrder m ctx order actions = .ok prepared
  prepares : m.Prepares ctx order actions oracle behavior prepared
  uses_eq : (order.taker prepared.side behavior prepared.effectivePrice).uses
    maxFillsPerInstruction order.quantity ((m.books prepared.side.opposite).makers
      prepared.side.opposite (some oracle) ctx.now) = .ok uses
  plan : prepared.plan = extend ⟨[], order.quantity, []⟩ uses
  executed : ∃ mBook mCancel mFill mRest mFund,
    Executed order prepared m mBook mCancel mFill mRest mFund m'

theorem Market.Valid.placed_of_executed {mBook mCancel mFill mRest mFund : Market} (hm : m.Valid)
    (hp : prepareOrder m ctx order actions = .ok prepared)
    (hex : Executed order prepared m mBook mCancel mFill mRest mFund m') :
    ∃ oracle behavior uses, Placed ctx order actions oracle behavior prepared uses m m' := by
  obtain ⟨oracle, behavior, hpr⟩ := prepareOrder_eq_ok hp
  obtain ⟨uses, hu, hpl⟩ := (hm.wellFormed _).planCrossingCrossTree_eq_ok
    (hm.distinctSequences _) hpr.plan
  exact ⟨oracle, behavior, uses, hp, hpr, hu, hpl, mBook, mCancel, mFill, mRest, mFund, hex⟩

theorem Market.Valid.placed {consume : Bool} {u : Unit} (hm : m.Valid)
    (h : placeOrderV3WithAction ctx order actions consume m = .ok u m') :
    ∃ oracle behavior prepared uses,
      Placed ctx order actions oracle behavior prepared uses m m' := by
  obtain ⟨prepared, _, _, _, _, _, hpr, hex⟩ := placeOrderV3WithAction_eq_ok h
  obtain ⟨oracle, behavior, uses, hp⟩ := hm.placed_of_executed hpr hex
  exact ⟨oracle, behavior, prepared, uses, hp⟩

namespace Market.Placed

section

variable (h : Placed ctx order actions oracle behavior prepared uses m m')

include h

theorem walk : (order.taker prepared.side behavior prepared.effectivePrice).Walk
    maxFillsPerInstruction order.quantity ((m.books prepared.side.opposite).makers
      prepared.side.opposite (some oracle) ctx.now) uses := Taker.walk_of_uses h.uses_eq

theorem mem_makers {u : Maker × Use} (hu : u ∈ uses) :
    u.1 ∈ (m.books prepared.side.opposite).makers prepared.side.opposite (some oracle) ctx.now :=
  h.walk.isPrefix.subset (List.mem_map_of_mem hu)

theorem resting_mem {u : Maker × Use} (hu : u ∈ uses) :
    u.1.resting ∈ m.orders prepared.side.opposite := resting_mem_contents (h.mem_makers hu)

theorem fills_eq : prepared.plan.fills = uses.filterMap fillOf := by
  rw [h.plan]
  simp [extend]

theorem cancellations_eq : prepared.plan.cancellations = uses.filterMap cancellationOf := by
  rw [h.plan]
  simp [extend]

theorem takerRemaining_eq :
    prepared.plan.takerRemaining = order.quantity - (uses.map consumed).sum := by
  rw [h.plan]
  rfl

theorem traded : m.Traded m' := by
  obtain ⟨_, _, _, _, _, hex⟩ := h.executed
  exact hex.traded

theorem version_eq : m.core.riskConfigVersion = v3RiskConfigVersion :=
  (readV3RiskConfig_eq_ok.1 h.prepares.config).1

theorem orderSequence_eq : m'.core.globalOrderSequence = prepared.sequence := by
  obtain ⟨_, _, _, _, _, hex⟩ := h.executed
  obtain ⟨_, hc⟩ := hex.record.core
  rw [hc]
  rfl

theorem sequence_val : prepared.sequence.val = m.core.globalOrderSequence.val + 1 :=
  U64.checkedSucc_eq_some h.prepares.sequence

end

variable (h : Placed ctx order actions oracle behavior prepared uses m m') (hm : m.Valid)

include h hm

theorem uses_nodup : (uses.map (·.1.resting)).Nodup := by
  have hnd : (((m.books prepared.side.opposite).makers prepared.side.opposite (some oracle)
      ctx.now).map Maker.resting).Nodup :=
    makers_resting_nodup (hm.distinctSequences prepared.side.opposite)
  have hp := h.walk.isPrefix.map Maker.resting
  rw [List.map_map] at hp
  exact hnd.sublist hp.sublist

theorem exchanged : (m'.books prepared.side.opposite).WellFormed ∧
    m'.orders prepared.side.opposite + (uses.map goneIn).sum =
      m.orders prepared.side.opposite + (uses.map leftIn).sum := by
  obtain ⟨_, _, _, _, _, hex⟩ := h.executed
  have hp := hex.books.1
  rw [h.plan] at hp
  exact (hm.wellFormed _).applyMatchPlan_eq_ok (fun u hu => h.resting_mem hu) (h.uses_nodup hm)
    (fun x n hu => h.walk.filled_le hu) hp

theorem rested : (order.rests prepared.plan = false ∧
      m'.books prepared.side = m.books prepared.side) ∨
    (order.rests prepared.plan = true ∧ prepared.plan.takerRemaining ≠ 0 ∧
      (m'.books prepared.side).WellFormed ∧ ∃ handle, m'.orders prepared.side =
        ⟨prepared.tree, handle, { prepared.leaf with
          quantity := prepared.plan.takerRemaining }⟩ ::ₘ m.orders prepared.side) := by
  obtain ⟨_, _, _, _, _, hex⟩ := h.executed
  rcases hex.books.2 with hs | ⟨hr, handle, hi⟩
  · exact .inl hs
  · have hpos : prepared.plan.takerRemaining ≠ 0 := by
      intro hz
      simp [PlaceOrderData.rests, hz] at hr
    rw [insertRestingOrder, if_neg hpos] at hi
    obtain ⟨hwf, hc⟩ := (hm.wellFormed _).contents_insert hi
    exact .inr ⟨hr, hpos, hwf, handle, hc⟩

end Market.Placed

theorem mem_leftIn (hr : r ∈ (uses.map leftIn).sum) : ∃ x n, (x, .filled n) ∈ uses ∧
    n ≠ x.leaf.quantity ∧
      r = { x.resting with leaf := { x.leaf with quantity := x.leaf.quantity - n } } := by
  obtain ⟨⟨x, use⟩, hu, hr⟩ := mem_sum_map.1 hr
  cases use with
  | cancelled | passed => simp [leftIn] at hr
  | filled n =>
    simp only [leftIn] at hr
    split at hr
    · simp at hr
    · rename_i hne
      exact ⟨x, n, hu, hne, mem_singleton.1 hr⟩

theorem sequences_leftIn_le (uses : List (Maker × Use)) :
    (uses.map leftIn).sum.map (fun r => r.leaf.sequence) ≤
      (uses.map goneIn).sum.map (fun r => r.leaf.sequence) := by
  induction uses with
  | nil => simp
  | cons u uses ih =>
    simp only [List.map_cons, List.sum_cons, map_add]
    refine add_le_add ?_ ih
    obtain ⟨x, use⟩ := u
    cases use with
    | cancelled | passed => simp [leftIn]
    | filled n =>
      simp only [leftIn, goneIn]
      split
      · simp
      · simp [Maker.resting]

namespace Market.Placed

variable (h : Placed ctx order actions oracle behavior prepared uses m m') (hm : m.Valid)

include h hm

theorem sequences_le : (m'.orders prepared.side.opposite).map (fun r => r.leaf.sequence) ≤
    (m.orders prepared.side.opposite).map fun r => r.leaf.sequence := by
  have heq := congrArg (map fun r : Resting => r.leaf.sequence) (h.exchanged hm).2
  simp only [map_add] at heq
  refine le_of_add_le_add_right (heq.trans_le ?_)
  exact add_le_add_right (sequences_leftIn_le uses) _

theorem opposite_valid (hr : r ∈ m'.orders prepared.side.opposite) :
    r.Valid prepared.side.opposite := by
  have hmem : r ∈ m.orders prepared.side.opposite + (uses.map leftIn).sum := by
    rw [← (h.exchanged hm).2]
    exact mem_add.2 (.inl hr)
  rcases mem_add.1 hmem with hold | hl
  · exact hm.resting _ r hold
  · obtain ⟨x, n, hu, hne, rfl⟩ := mem_leftIn hl
    have hle := h.walk.filled_le hu
    exact (hm.resting _ _ (h.resting_mem hu)).shrink (by omega)

theorem own_sequence_fresh {s : Side} (hr : r ∈ m.orders s) :
    r.leaf.sequence < prepared.sequence := by
  have hle := hm.below h.version_eq s r hr
  have hv := h.sequence_val
  rw [Fin.le_def] at hle
  rw [Fin.lt_def]
  omega

theorem valid : m'.Valid := by
  obtain ⟨hwf, -⟩ := h.exchanged hm
  have hv : m'.core.riskConfigVersion = m.core.riskConfigVersion := by
    obtain ⟨_, _, _, _, -, -, -, hc⟩ := h.traded.core
    rw [hc]
  have hs : ∀ s, ∀ r ∈ m.orders s, r.leaf.sequence < m'.core.globalOrderSequence := by
    intro s r hr
    rw [h.orderSequence_eq]
    exact h.own_sequence_fresh hm hr
  have hopp : ∀ r ∈ m'.orders prepared.side.opposite,
      r.leaf.sequence < m'.core.globalOrderSequence := by
    intro r hr
    have hmem := mem_of_le (h.sequences_le hm) (mem_map_of_mem _ hr)
    obtain ⟨r', hr', heq⟩ := mem_map.1 hmem
    rw [← heq]
    exact hs _ r' hr'
  have hnd := hm.distinct
  rw [← m.orders_add prepared.side, map_add] at hnd
  rcases h.rested hm with ⟨-, hb⟩ | ⟨-, hpos, hwf', handle, ho⟩
  · have ho : m'.orders prepared.side = m.orders prepared.side := by rw [orders, hb]; rfl
    constructor
    · intro s
      rcases prepared.side.eq_or_eq_opposite s with rfl | rfl
      · rw [hb]
        exact hm.wellFormed _
      · exact hwf
    · intro s r hr
      rcases prepared.side.eq_or_eq_opposite s with rfl | rfl
      · exact hm.resting _ r (ho ▸ hr)
      · exact h.opposite_valid hm hr
    · rw [← m'.orders_add prepared.side, ho, map_add]
      exact nodup_of_le (add_le_add_right (h.sequences_le hm) _) hnd
    · intro _ s r hr
      rcases prepared.side.eq_or_eq_opposite s with rfl | rfl
      · exact (hs _ r (ho ▸ hr)).le
      · exact (hopp r hr).le
  · obtain ⟨_, _, -, hl, -⟩ := h.prepares.leaf_eq
    have hn : prepared.leaf.sequence = m'.core.globalOrderSequence := by
      rw [h.orderSequence_eq, hl]
    constructor
    · intro s
      rcases prepared.side.eq_or_eq_opposite s with rfl | rfl
      · exact hwf'
      · exact hwf
    · intro s r hr
      rcases prepared.side.eq_or_eq_opposite s with rfl | rfl
      · rw [ho] at hr
        rcases mem_cons.1 hr with rfl | hr
        · exact h.prepares.resting_valid hpos handle
        · exact hm.resting _ r hr
      · exact h.opposite_valid hm hr
    · rw [← m'.orders_add prepared.side, ho, cons_add, map_cons, map_add, nodup_cons]
      constructor
      · rw [← map_add, mem_map]
        rintro ⟨r, hr, heq⟩
        dsimp only at heq
        rw [hn] at heq
        rcases mem_add.1 hr with hr | hr
        · exact (hs _ r hr).ne heq
        · exact (hopp r hr).ne heq
      · exact nodup_of_le (add_le_add_right (h.sequences_le hm) _) hnd
    · intro _ s r hr
      rcases prepared.side.eq_or_eq_opposite s with rfl | rfl
      · rw [ho] at hr
        rcases mem_cons.1 hr with rfl | hr
        · exact hn.le
        · exact (hs _ r hr).le
      · exact (hopp r hr).le

end Market.Placed

/-! ## Cancellations -/

theorem PagedBookV3.WellFormed.contents_removeOwned {b b' : PagedBookV3} {key : Key}
    {handle owner : ℕ} {removed : LeafNode} (hb : b.WellFormed)
    (hf : b.find tree key = .ok handle) (hl : b.leaf handle = .ok leaf)
    (h : PagedBookV3.cancelOwnedOrder tree key owner b = .ok removed b') :
    b'.WellFormed ∧ b.contents = ⟨tree, handle, leaf⟩ ::ₘ b'.contents := by
  simp only [cancelOwnedOrder, removeOwned, run_reading_bind] at h
  obtain ⟨_, -, _, -, h⟩ := h
  split at h
  · simp at h
  · obtain ⟨hk, hb', ha', hc⟩ := hb.contents_remove h
    obtain ⟨leaf', hmem, hk'⟩ := hb.find_eq_ok.1 hf
    obtain rfl : leaf = leaf' := by simpa [hl] using hb.leaf_eq hmem
    have hm' : (⟨tree, ha', removed⟩ : Resting) ∈ b.contents := by
      rw [hc]
      exact mem_cons_self _ _
    have heq : (⟨tree, ha', removed⟩ : Resting) = ⟨tree, handle, leaf⟩ :=
      hb.resting_ext hm' (mem_contents.2 hmem) rfl (hk.trans hk'.symm)
    exact ⟨hb', heq ▸ hc⟩

namespace Market.Cancelled

variable (h : Cancelled i side tree leaf m m') (hm : m.Valid)

include h

theorem owner_eq : leaf.owner = i := by
  obtain ⟨_, _, -, -, ho, -⟩ := h.found
  exact ho

theorem books_of_ne {s : Side} (hs : s ≠ side) : m'.books s = m.books s := by
  obtain ⟨_, _, -, -, -, _, b, _, _, _, -, -, -, -, hl⟩ := h.found
  rw [hl.books]
  exact Function.update_of_ne hs _ _

include hm

theorem orders_eq : (m'.books side).WellFormed ∧
    ∃ handle, m.orders side = ⟨tree, handle, leaf⟩ ::ₘ m'.orders side := by
  obtain ⟨_, handle, hf, hl, -, _, b, _, _, _, hc, -, -, -, hlog⟩ := h.found
  have hb : m'.books side = b := by
    rw [hlog.books]
    exact Function.update_self _ _ _
  obtain ⟨hwf, hco⟩ := (hm.wellFormed side).contents_removeOwned hf hl hc
  rw [orders, orders, hb]
  exact ⟨hwf, handle, hco⟩

theorem orders_le (s : Side) : m'.orders s ≤ m.orders s := by
  by_cases hs : s = side
  · subst hs
    obtain ⟨-, _, ho⟩ := h.orders_eq hm
    rw [ho]
    exact le_cons_self _ _
  · rw [orders, h.books_of_ne hs]
    exact le_rfl

theorem valid : m'.Valid := by
  have hle := h.orders_le hm
  constructor
  · intro s
    by_cases hs : s = side
    · subst hs
      exact (h.orders_eq hm).1
    · rw [h.books_of_ne hs]
      exact hm.wellFormed s
  · exact fun s r hr => hm.resting s r (mem_of_le (hle s) hr)
  · exact nodup_of_le (map_le_map (add_le_add (hle _) (hle _))) hm.distinct
  · intro hv s r hr
    obtain ⟨_, _, -, -, -, _, _, _, _, _, -, -, -, -, ⟨_, hc⟩, -⟩ := h.found
    rw [hc] at hv ⊢
    exact hm.below hv s r (mem_of_le (hle s) hr)

end Market.Cancelled

/-! ## Runs -/

theorem Market.SameLedgers.valid (h : m.SameLedgers m') (hm : m.Valid) : m'.Valid := by
  obtain ⟨⟨_, hc⟩, hb, -⟩ := h
  exact hm.of_books_eq hb fun hv => by rw [hc] at hv ⊢; exact ⟨hv, rfl⟩

theorem Market.Logged.valid (h : m.Logged m') (hm : m.Valid) : m'.Valid := h.sameLedgers.valid hm

theorem Action.Trades.valid {a : Action} (h : a.Trades m m') (hm : m.Valid) : m'.Valid := by
  refine h.induction (fun m₁ m₂ _ _ _ _ hm₁ hp => ?_) (fun _ _ _ _ _ _ hm₁ hc => hc.valid hm₁)
    (fun _ _ hm₁ hs => hs.valid hm₁) hm
  obtain ⟨_, _, _, _, hpl⟩ := hm₁.placed hp
  exact hpl.valid hm₁

theorem World.Step.valid {a : Action} {w w' : World} (h : w.Step a w') (hw : w.live.Valid) :
    w'.live.Valid := by
  cases h with
  | opened _ _ _ logged => exact logged.valid (hw.of_books_eq rfl fun hv => ⟨hv, rfl⟩)
  | closed _ _ logged => exact logged.valid (hw.of_books_eq rfl fun hv => ⟨hv, rfl⟩)
  | deposited _ _ logged => exact logged.valid (hw.of_books_eq rfl fun hv => ⟨hv, rfl⟩)
  | credited _ _ _ _ _ logged => exact logged.valid (hw.of_books_eq rfl fun hv => ⟨hv, rfl⟩)
  | withdrawn _ debited => exact debited.logged.valid (hw.of_books_eq rfl fun hv => ⟨hv, rfl⟩)
  | requested _ _ debited => exact debited.logged.valid (hw.of_books_eq rfl fun hv => ⟨hv, rfl⟩)
  | traded trades => exact trades.valid hw
  | liquidated _ hl =>
    obtain ⟨_, logged⟩ := hl.result
    exact logged.valid (hw.of_books_eq rfl fun hv => ⟨hv, rfl⟩)
  | configured _ readable =>
    obtain ⟨_, hr⟩ := readable
    exact hw.of_books_eq rfl fun _ => ⟨(readV3RiskConfig_eq_ok.1 hr).1, rfl⟩
  | kept _ same =>
    exact hw.of_books_eq same.books fun hv =>
      ⟨same.riskConfigVersion ▸ hv, same.globalOrderSequence⟩
  | reconciled logged => exact logged.valid (hw.of_books_eq rfl fun hv => ⟨hv, rfl⟩)
  | rolledBack =>
    refine hw.of_books_eq rfl fun hv => ?_
    simp [MarketCore.rolledBack, MarketCore.blank, v3RiskConfigVersion] at hv
  | inboxed | paid | copiedShard | copiedCore | donated => exact hw

theorem PagedBookV3.Prepared.contents_eq {b : PagedBookV3} (h : b.Prepared) : b.contents = 0 := by
  simp [contents, h.layout.leaves_eq, treeLeaves]

theorem World.Initial.valid {w : World} (h : w.Initial) : w.live.Valid := by
  have ho (side : Side) : w.live.orders side = 0 := (h.books side).contents_eq
  constructor
  · exact fun side => ⟨_, _, (h.books side).layout⟩
  · exact fun side r hr => by simp [ho] at hr
  · simp [ho]
  · exact fun _ side r hr => by simp [ho] at hr

theorem World.valid_of_run {w₀ w : World} {as : List Action} (hi : w₀.Initial)
    (hr : Run Action.Accepted w₀ as w) : w.live.Valid :=
  hr.invariant (P := fun w => w.live.Valid) hi.valid fun _ _ _ ht ha => ha.step.valid ht

end Equinox
