import Equinox.Market.Holdings

/-! # Seats and books agree

In every reachable state the order counters of each seat are those of its resting
orders in the four trees, and every order belongs to a seat in use.
-/

namespace Equinox

open Foundation CritBit PagedBookV3 World Multiset TraderSeat LeafNode Market

variable {a : Action} {w w' w₀ : World} {as : List Action} {m m' : Market} {ctx : Context}
  {order : PlaceOrderData} {actions i bps : ℕ} {oracle : I64} {behavior : SelfTradeBehavior}
  {prepared : PreparedOrder} {uses : List (Maker × Use)} {side : Side} {tree : TreeKind}
  {leaf : LeafNode} {k : OrderField} {seat : TraderSeat}

def PagedBookV3.owned (b : PagedBookV3) (tree : TreeKind) (i : ℕ) : List LeafNode :=
  ((b.leaves tree).map Prod.snd).filter fun leaf => leaf.owner = i

/-- The leaves of a seat in the two trees of a side. -/
def Market.owned (m : Market) (side : Side) (i : ℕ) : List LeafNode :=
  (m.books side).owned .fixed i ++ (m.books side).owned .oraclePegged i

/-- The counters of every seat agree with the books, and orders belong to seats in use. -/
structure Market.Agrees (m : Market) : Prop where
  occupied : ∀ side, ∀ r ∈ m.orders side, (m.seats r.leaf.owner).occupancy = true
  counted : ∀ i k, k ≠ .margin → m.excess 0 i k = 0

/-! ## What a seat owns -/

theorem Market.sum_orders (m : Market) (side : Side) (i : ℕ) (f : LeafNode → ℤ) :
    ((m.orders side).map fun r => if r.leaf.owner = i then f r.leaf else 0).sum =
      ((m.owned side i).map f).sum := by
  have ht (l : List (ℕ × LeafNode)) (tree : TreeKind) :
      ((l.map fun e => Resting.mk tree e.1 e.2).map fun r =>
        if r.leaf.owner = i then f r.leaf else 0).sum =
      (((l.map Prod.snd).filter fun leaf => leaf.owner = i).map f).sum := by
    induction l with
    | nil => rfl
    | cons e l ih =>
      by_cases he : e.2.owner = i
      · simpa [he] using ih
      · simpa [he] using ih
  simp only [orders, contents, map_coe, sum_coe, List.map_append, List.sum_append,
    ht, owned, PagedBookV3.owned]

theorem Market.mem_owned_iff : leaf ∈ m.owned side i ↔
    leaf.owner = i ∧ ∃ r ∈ m.orders side, r.leaf = leaf := by
  simp only [owned, PagedBookV3.owned, List.mem_append, List.mem_filter, List.mem_map,
    decide_eq_true_eq, Prod.exists, exists_eq_right, orders]
  constructor
  · rintro (⟨⟨j, hmem⟩, ho⟩ | ⟨⟨j, hmem⟩, ho⟩)
    · exact ⟨ho, ⟨.fixed, j, leaf⟩, mem_contents.2 hmem, rfl⟩
    · exact ⟨ho, ⟨.oraclePegged, j, leaf⟩, mem_contents.2 hmem, rfl⟩
  · rintro ⟨ho, ⟨tree, j, _⟩, hmem, rfl⟩
    cases tree with
    | fixed => exact .inl ⟨⟨j, mem_contents.1 hmem⟩, ho⟩
    | oraclePegged => exact .inr ⟨⟨j, mem_contents.1 hmem⟩, ho⟩

theorem Market.owned_eq_nil_iff : m.owned side i = [] ↔ ∀ r ∈ m.orders side, r.leaf.owner ≠ i := by
  rw [List.eq_nil_iff_forall_not_mem]
  constructor
  · exact fun h r hr ho => h r.leaf (mem_owned_iff.2 ⟨ho, r, hr, rfl⟩)
  · rintro h leaf hl
    obtain ⟨ho, r, hr, rfl⟩ := mem_owned_iff.1 hl
    exact h r hr ho

theorem Market.held_count (m : Market) (bps i : ℕ) :
    m.held bps i .count = (m.owned .bid i).length + (m.owned .ask i).length := by
  have hs (side : Side) : ((m.orders side).map (·.share bps i .count)).sum =
      (m.owned side i).length := by
    refine (m.sum_orders side i fun _ => 1).trans ?_
    simp
  rw [held, map_add, sum_add, hs, hs]

theorem Market.Valid.held_exposure (hm : m.Valid) (bps i : ℕ) :
    m.held bps i .bid = ((m.owned .bid i).map fun leaf => (leaf.quantity : ℤ)).sum ∧
      m.held bps i .ask = ((m.owned .ask i).map fun leaf => (leaf.quantity : ℤ)).sum := by
  have hs (side : Side) (k : OrderField)
      (hk : ∀ q m, orderShare true side q m k = q) : ((m.orders side).map (·.share bps i k)).sum =
        ((m.owned side i).map fun leaf => (leaf.quantity : ℤ)).sum := by
    rw [← m.sum_orders]
    refine congrArg sum (map_congr rfl fun r hr => ?_)
    rw [Resting.share, (hm.resting side r hr).side_eq, hk]
  have ho (side : Side) (k : OrderField)
      (hk : ∀ q m, orderShare true side q m k = 0) :
      ((m.orders side).map (·.share bps i k)).sum = 0 := by
    refine sum_eq_zero fun x hx => ?_
    obtain ⟨r, hr, rfl⟩ := mem_map.1 hx
    rw [Resting.share, (hm.resting side r hr).side_eq, hk, ite_self]
  rw [held, held, map_add, sum_add, map_add, sum_add]
  constructor
  · rw [hs .bid .bid (by simp [orderShare]), ho .ask .bid (by simp [orderShare]), add_zero]
  · rw [ho .bid .ask (by simp [orderShare]), hs .ask .ask (by simp [orderShare]), zero_add]

theorem Market.held_eq_zero (h : ∀ side, m.owned side i = []) (bps : ℕ) (k : OrderField) :
    m.held bps i k = 0 := by
  refine sum_eq_zero fun x hx => ?_
  obtain ⟨r, hr, rfl⟩ := mem_map.1 hx
  refine if_neg fun ho => ?_
  rcases mem_add.1 hr with hr | hr
  · exact owned_eq_nil_iff.1 (h .bid) r hr ho
  · exact owned_eq_nil_iff.1 (h .ask) r hr ho

theorem Market.Agrees.owned_eq_nil_of_vacant (hm : m.Agrees)
    (hi : (m.seats i).occupancy = false) (side : Side) : m.owned side i = [] := by
  refine owned_eq_nil_iff.2 fun r hr ho => ?_
  have := hm.occupied side r hr
  rw [ho, hi] at this
  simp at this

theorem Market.Agrees.owned_eq_nil_of_count (hm : m.Agrees)
    (hi : (m.seats i).openOrderCount = 0) (side : Side) : m.owned side i = [] := by
  have hc : ((m.seats i).openOrderCount : ℤ) - m.held 0 i .count = 0 :=
    hm.counted i .count (by decide)
  rw [m.held_count, hi] at hc
  cases side with
  | bid => exact List.eq_nil_of_length_eq_zero (by omega)
  | ask => exact List.eq_nil_of_length_eq_zero (by omega)

/-! ## The counters agree -/

theorem Market.Agrees.of_ordered_eq (hm : m.Agrees) (hb : m'.books = m.books)
    (hor : ∀ i k, (m'.seats i).ordered k = (m.seats i).ordered k)
    (ho : ∀ i, (m'.seats i).occupancy = (m.seats i).occupancy) : m'.Agrees := by
  constructor
  · intro side r hr
    rw [orders, hb] at hr
    rw [ho]
    exact hm.occupied side r hr
  · intro i k hk
    rw [excess, hor, held_congr hb]
    exact hm.counted i k hk

theorem Market.Agrees.placed (hm : m.Agrees) (hv : m.Valid)
    (h : Placed ctx order actions oracle behavior prepared uses m m') : m'.Agrees := by
  have ho (i : ℕ) : (m'.seats i).occupancy = (m.seats i).occupancy := (h.traded.claims i).occupancy
  constructor
  · intro side r hr
    rw [ho]
    rcases prepared.side.eq_or_eq_opposite side with rfl | rfl
    · rcases h.rested hv with ⟨-, hbo⟩ | ⟨-, -, -, _, hor⟩
      · rw [orders, hbo] at hr
        exact hm.occupied _ r hr
      · rw [hor] at hr
        rcases mem_cons.1 hr with rfl | hr
        · obtain ⟨_, _, -, hl, -⟩ := h.prepares.leaf_eq
          rw [hl]
          exact h.prepares.occupied
        · exact hm.occupied _ r hr
    · have hmem : r ∈ m.orders prepared.side.opposite + (uses.map leftIn).sum := by
        rw [← (h.exchanged hv).2]
        exact mem_add.2 (.inl hr)
      rcases mem_add.1 hmem with hold | hle
      · exact hm.occupied _ r hold
      · obtain ⟨x, n, hu, -, rfl⟩ := mem_leftIn hle
        exact hm.occupied _ x.resting (h.resting_mem hu)
  · intro i k hk
    have he := h.excess hv i k
    rw [if_neg hk, add_zero] at he
    have hb (n : Market) : n.excess prepared.config.initialMarginBps i k = n.excess 0 i k := by
      rw [excess, excess, held_of_ne_margin hk _ 0]
    rw [← hb, he, hb]
    exact hm.counted i k hk

theorem Market.Agrees.cancelled (hm : m.Agrees) (hv : m.Valid)
    (h : Cancelled i side tree leaf m m') : m'.Agrees := by
  constructor
  · intro s r hr
    rw [(h.traded.claims _).occupancy]
    exact hm.occupied s r (mem_of_le (h.orders_le hv s) hr)
  · intro j k hk
    have hb (n : Market) :
        n.excess m.core.config.effective.initialMarginBps j k = n.excess 0 j k := by
      rw [excess, excess, held_of_ne_margin hk _ 0]
    rw [← hb, h.excess hv, hb]
    exact hm.counted j k hk

theorem Market.Agrees.sameLedgers (hm : m.Agrees) (h : m.SameLedgers m') : m'.Agrees :=
  hm.of_ordered_eq h.books (by simp [h.seats]) (by simp [h.seats])

theorem Market.Agrees.withSeat (hm : m.Agrees) (hn : ∀ side, m.owned side i = [])
    (hs : ∀ k, seat.ordered k = 0) (h : (m.withSeat i seat).Logged m') : m'.Agrees := by
  constructor
  · intro side r hr
    rw [orders, h.books] at hr
    have hne := owned_eq_nil_iff.1 (hn side) r hr
    rw [h.seats, seats_withSeat_of_ne hne]
    exact hm.occupied side r hr
  · intro j k hk
    rw [excess, h.seats, held_congr (m := m) h.books]
    by_cases hj : j = i
    · subst hj
      rw [seats_withSeat_self, hs, held_eq_zero hn, sub_zero]
    · rw [seats_withSeat_of_ne hj]
      exact hm.counted j k hk

theorem TraderSeat.canClose_eq_true (h : seat.canClose = true) :
    seat.openOrderCount = 0 ∧ seat.basePosition = 0 ∧ seat.reservedMargin = 0 := by
  simp only [canClose, Bool.and_eq_true, decide_eq_true_eq] at h
  exact ⟨h.1.1.1.2, h.1.1.2, h.1.2⟩

theorem TraderSeat.ordered_opened (trader : Address) (sequence : ℕ) (k : OrderField) :
    (opened trader sequence).ordered k = 0 := by
  cases k <;> rfl

theorem TraderSeat.ordered_empty (k : OrderField) : empty.ordered k = 0 := by
  cases k <;> rfl

theorem Action.Trades.agrees (h : a.Trades m m') (hv : m.Valid) (hm : m.Agrees) : m'.Agrees := by
  refine (h.induction (P := fun m => m.Valid ∧ m.Agrees) (fun m₁ m₂ _ _ _ _ hm₁ hp => ?_)
    (fun _ _ _ _ _ _ hm₁ hc => ⟨hc.valid hm₁.1, hm₁.2.cancelled hm₁.1 hc⟩)
    (fun _ _ hm₁ hs => ⟨hs.valid hm₁.1, hm₁.2.sameLedgers hs⟩) ⟨hv, hm⟩).2
  obtain ⟨_, _, _, _, hpl⟩ := hm₁.1.placed hp
  exact ⟨hpl.valid hm₁.1, hm₁.2.placed hm₁.1 hpl⟩

theorem World.Turn.agrees (h : w.Turn a w') (hv : w.live.Valid) (hw : w.live.Agrees) :
    w'.live.Agrees := by
  cases h with
  | opened _ vacant logged =>
    exact hw.withSeat (hw.owned_eq_nil_of_vacant vacant) (ordered_opened _ _) logged
  | closed _ closable logged =>
    exact hw.withSeat (hw.owned_eq_nil_of_count (canClose_eq_true closable).1) ordered_empty logged
  | traded trades => exact trades.agrees hv hw
  | liquidated _ hl =>
    exact hw.of_ordered_eq hl.books hl.ordered fun j => (hl.sameClaims j).occupancy
  | configured _ _ result | rolledBack result =>
    rw [result]
    exact hw.of_ordered_eq rfl (fun _ _ => rfl) fun _ => rfl
  | kept ho => exact hw.of_ordered_eq ho.books ho.ordered ho.occupancy

theorem World.Initial.orders_eq (h : w.Initial) (side : Side) : w.live.orders side = 0 :=
  (h.books side).contents_eq

theorem World.Initial.excess_eq (h : w.Initial) (bps i : ℕ) (k : OrderField) :
    w.live.excess bps i k = 0 := by
  rw [excess, held, h.orders_eq, h.orders_eq, h.seats, ordered_empty]
  rfl

theorem World.Initial.agrees (h : w.Initial) : w.live.Agrees := by
  constructor
  · intro side r hr
    rw [h.orders_eq] at hr
    exact absurd hr (notMem_zero r)
  · exact fun i k _ => h.excess_eq 0 i k

theorem World.agrees_of_run (hi : w₀.Initial) (hr : Run Action.Accepted w₀ as w) :
    w.live.Agrees := by
  refine (hr.invariant (P := fun w => w.live.Valid ∧ w.live.Agrees) ⟨hi.valid, hi.agrees⟩
    fun _ _ _ ht ha => ?_).2
  exact ⟨ha.step.valid ht.1, ha.step.turn.agrees ht.1 ht.2⟩

theorem Market.Agrees.ordered_exposure (ha : m.Agrees) (hm : m.Valid) (i : ℕ) :
    (m.seats i).ordered .bid = ((m.owned .bid i).map quantity).sum ∧
      (m.seats i).ordered .ask = ((m.owned .ask i).map quantity).sum := by
  obtain ⟨hb, hask⟩ := hm.held_exposure 0 i
  have hca (l : List LeafNode) : (l.map fun leaf => (leaf.quantity : ℤ)).sum =
      ((l.map quantity).sum : ℕ) := by
    induction l with
    | nil => rfl
    | cons leaf l ih => simpa using ih
  have hc (k : OrderField) (hk : k ≠ .margin) : (m.seats i).ordered k = m.held 0 i k :=
    sub_eq_zero.1 (ha.counted i k hk)
  exact ⟨(hc .bid (by decide)).trans (hb.trans (hca _)),
    (hc .ask (by decide)).trans (hask.trans (hca _))⟩

/-- In every reachable state a seat counts exactly its leaves in the four trees and their
quantities, and an unoccupied seat owns no leaf. -/
theorem seat_counts_its_leaves (hinit : w₀.Initial) (hrun : Run Action.Accepted w₀ as w) (i : ℕ) :
    (w.live.seats i).openOrderCount = ((w.live.books .bid).owned .fixed i).length +
        ((w.live.books .bid).owned .oraclePegged i).length +
        ((w.live.books .ask).owned .fixed i).length +
        ((w.live.books .ask).owned .oraclePegged i).length ∧
      (w.live.seats i).openBidExposure = (((w.live.books .bid).owned .fixed i ++
        (w.live.books .bid).owned .oraclePegged i).map quantity).sum ∧
      (w.live.seats i).openAskExposure = (((w.live.books .ask).owned .fixed i ++
        (w.live.books .ask).owned .oraclePegged i).map quantity).sum ∧
      ((w.live.seats i).occupancy = false →
        ∀ side tree, (w.live.books side).owned tree i = []) := by
  have ha := agrees_of_run hinit hrun
  obtain ⟨hb, hask⟩ := ha.ordered_exposure (valid_of_run hinit hrun) i
  refine ⟨?_, hb, hask, fun hv side tree => ?_⟩
  · have hco := sub_eq_zero.1 (ha.counted i .count (by decide))
    rw [w.live.held_count] at hco
    simp only [ordered, Market.owned, List.length_append] at hco
    omega
  · have hn := List.append_eq_nil_iff.1 (ha.owned_eq_nil_of_vacant hv side)
    cases tree with
    | fixed => exact hn.1
    | oraclePegged => exact hn.2

/-- A buyer and a seller of 10, where the buyer's order is larger. -/
def restingRun : List Action :=
  fundRun 10000 1000 ++
    [.placeOrderV3 (call 7 1000) (limitOrder .bid 0 12 1000),
      .placeOrderV3 (call 8 1000) (limitOrder .ask 1 10 1000)]

theorem seat_counts_its_leaves_of_restingRun :
    ((genesis.after restingRun).live.seats 0).openOrderCount = 1 ∧
      ((genesis.after restingRun).live.seats 0).openBidExposure = 2 := by
  have hr : Run Action.Accepted genesis restingRun (genesis.after restingRun) :=
    run_accepted (by decide +kernel)
  obtain ⟨hc, hb, -⟩ := seat_counts_its_leaves genesis_initial hr 0
  rw [hc, hb]
  constructor <;> decide +kernel

end Equinox
