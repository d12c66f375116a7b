import Equinox.Market.Headers
import Equinox.Workers.PageBytes

/-! # The book as the worker shows it

The worker lists every record whose tag is a leaf's and takes its tree from a
walk over the handles. On pages that the program wrote, the walk succeeds, and
the order book it ends with has one entry for each resting order.
-/

namespace Equinox

open Foundation CritBit CoreBytes Function List PagedBookV3 Side BookOp

namespace MarketView

variable {core : Bytes} {leaf : LeafNode} {handle : ℕ}

/-! ## The pages of a side -/

section SidePages

variable {books : Side → PagedBookV3} {order : List (Side × ℕ)} {bytes : Side × ℕ → Bytes}
  {side : Side} {index : ℕ} {page : V3BookPageState}

def sidePages (order : List (Side × ℕ)) (bytes : Side × ℕ → Bytes) (side : Side) :
    List V3BookPageState :=
  (order.map fun k => pageState (bytes k)).filter (·.side = side.byte)

def recordAt (bytes : Side × ℕ → Bytes) (side : Side) (handle : ℕ) : Bytes :=
  slotRecord (pageState (bytes (side, handle / bookNodesPerPage))).nodeBytes
    (handle % bookNodesPerPage)

namespace Pages

section

variable (P : Pages books core order bytes)

include P

theorem mem_order {k : Side × ℕ} :
    k ∈ order ↔ k.2 < bookPagesPerSide := P.perm.mem_iff.trans mem_pageKeys

theorem stored_at (side : Side)
    (hi : index < bookPagesPerSide) :
    PageBytes (bytes (side, index)) core side index ((books side).pages index) :=
  P.stored (side, index) (P.mem_order.2 hi)

theorem mem_sidePages : page ∈ sidePages order bytes side ↔
    ∃ index < bookPagesPerSide, pageState (bytes (side, index)) = page := by
  rw [sidePages, mem_filter, mem_map]
  constructor
  · rintro ⟨⟨⟨side', index⟩, hk, rfl⟩, hs⟩
    have hf : (pageState (bytes (side', index))).side = side'.byte := (P.stored _ hk).header.first
    rw [hf, decide_eq_true_eq] at hs
    obtain rfl : side' = side := by cases side' <;> cases side <;> simp [byte] at hs ⊢
    exact ⟨index, P.mem_order.1 hk, rfl⟩
  · rintro ⟨index, hi, rfl⟩
    refine ⟨⟨(side, index), P.mem_order.2 hi, rfl⟩, ?_⟩
    exact decide_eq_true (P.stored_at side hi).header.first

theorem find_page (hin : index < bookPagesPerSide) :
    (sidePages order bytes side).find? (·.page = index) =
      some (pageState (bytes (side, index))) := by
  have hpa {i : ℕ} (hi : i < bookPagesPerSide) : (pageState (bytes (side, i))).page = i :=
    (P.stored_at side hi).header.second
  refine find?_eq_some_of_unique (P.mem_sidePages.2 ⟨index, hin, rfl⟩)
    (decide_eq_true (hpa hin)) fun page hmem hp => ?_
  obtain ⟨i, hi, rfl⟩ := P.mem_sidePages.1 hmem
  have hi' := of_decide_eq_true hp
  rw [hpa hi] at hi'
  rw [hi']

end

theorem page_lt (h : handle < bookRecordsPerSide) :
    handle / bookNodesPerPage < bookPagesPerSide := Nat.div_lt_of_lt_mul (by rwa [Nat.mul_comm])

theorem slot_lt (handle : ℕ) : handle % bookNodesPerPage < bookNodesPerPage :=
  Nat.mod_lt _ (by decide)

section

variable (P : Pages books core order bytes)

include P

theorem length_recordAt (side : Side)
    (h : handle < bookRecordsPerSide) : (recordAt bytes side handle).length = v3NodeSize :=
  length_slotRecord (P.stored_at side (page_lt h)).header.length (slot_lt handle)

theorem nodeBytes (side : Side)
    (h : handle < bookRecordsPerSide) :
    NodeBytes (recordAt bytes side handle) ((books side).node handle) :=
  (P.stored_at side (page_lt h)).nodes _ (slot_lt handle)

theorem mem_nodes {state : V3BookNodeState} :
    state ∈ (sidePages order bytes side).flatMap (·.nodes) ↔
      state.handle < bookRecordsPerSide ∧
        decodeBookNode (recordAt bytes side state.handle) state.handle = some state := by
  rw [mem_flatMap]
  constructor
  · rintro ⟨page, hp, hst⟩
    obtain ⟨index, hi, rfl⟩ := P.mem_sidePages.1 hp
    obtain ⟨slot, hs, hd⟩ := mem_filterMap.1 hst
    have hs := mem_range.1 hs
    have hse := (P.stored_at side hi).header.second
    rw [hse] at hd
    have hh := handle_of_decode hd
    rw [hh, recordAt, block_div hs, block_mod hs]
    exact ⟨block_lt hi hs, hd⟩
  · rintro ⟨hlt, hd⟩
    refine ⟨_, P.mem_sidePages.2 ⟨_, page_lt hlt, rfl⟩, mem_filterMap.2 ?_⟩
    refine ⟨_, mem_range.2 (slot_lt state.handle), ?_⟩
    rw [(P.stored_at side (page_lt hlt)).header.second, Nat.div_add_mod']
    exact hd

theorem byHandle_eq (h : handle < bookRecordsPerSide) :
    byHandle (sidePages order bytes side) handle =
      decodeBookNode (recordAt bytes side handle) handle := by
  cases hd : decodeBookNode (recordAt bytes side handle) handle with
  | none =>
    refine find?_eq_none.2 fun state hs hh => ?_
    obtain rfl := of_decide_eq_true hh
    rw [(P.mem_nodes.1 (mem_reverse.1 hs)).2] at hd
    cases hd
  | some state =>
    have hh := handle_of_decode hd
    refine find?_eq_some_of_unique (mem_reverse.2 (P.mem_nodes.2 ?_))
      (decide_eq_true hh) fun state' hs hh' => ?_
    · rw [hh]
      exact ⟨h, hd⟩
    · have hf := (P.mem_nodes.1 (mem_reverse.1 hs)).2
      rw [of_decide_eq_true hh', hd] at hf
      exact (Option.some.inj hf).symm

end

end Pages

end SidePages

/-! ## The walk -/

/-- A walk that labelled these handles and met no other. -/
structure Labels (tree : TreeKind) (handles : List ℕ) (s s' : Walk) : Prop where
  label : ∀ i, s'.label i = if i ∈ handles then some tree else s.label i
  seen : ∀ i, i ∈ s'.seen ↔ i ∈ handles ∨ i ∈ s.seen

/-- No label contradicts the tree, and no handle was met before. -/
structure Unmet (tree : TreeKind) (handles : List ℕ) (s : Walk) : Prop where
  label : ∀ i ∈ handles, (s.label i).any (· ≠ tree) = false
  seen : ∀ i ∈ handles, i ∉ s.seen

variable {i : ℕ} {b : PagedBookV3}

section Walking

variable {books : Side → PagedBookV3} {order : List (Side × ℕ)} {bytes : Side × ℕ → Bytes}
  {side : Side} {tree : TreeKind} {t : BookTree} {s s' : Walk} {fuel : ℕ}

theorem Unmet.after {hs hs' : List ℕ} (h : Unmet tree hs' s) (hl : Labels tree hs s s')
    (hd : ∀ i ∈ hs', i ∉ hs) : Unmet tree hs' s' where
  label i hi := by rw [hl.label, if_neg (hd i hi), h.label i hi]
  seen i hi := by rw [hl.seen]; exact not_or.2 ⟨hd i hi, h.seen i hi⟩

theorem Labels.trans {hs hs' : List ℕ} {s'' : Walk} (h : Labels tree hs s s')
    (h' : Labels tree hs' s' s'') : Labels tree (hs ++ hs') s s'' where
  label i := by
    rw [h'.label, h.label]
    by_cases hi : i ∈ hs <;> by_cases hi' : i ∈ hs' <;> simp [hi, hi']
  seen i := by rw [h'.seen, h.seen, mem_append]; tauto

def Walk.met (s : Walk) (tree : TreeKind) (handle : ℕ) : Walk :=
  { label := update s.label handle (some tree), seen := handle :: s.seen }

theorem labels_met : Labels tree [handle] s (s.met tree handle) where
  label i := by
    simp only [Walk.met, update_apply, mem_singleton]
  seen i := by simp [Walk.met]

theorem none_ne (hi : i < bookSlotsPerSide) : i ≠ NONE := by
  unfold bookSlotsPerSide at hi
  unfold NONE
  omega

variable {forest : Forest} {free : List ℕ}

namespace Pages

section

variable (P : Pages books core order bytes)

include P

theorem walk_step (hi : handle < bookSlotsPerSide)
    (hu : Unmet tree [handle] s) {state : V3BookNodeState}
    (hd : decodeBookNode (recordAt bytes side handle) handle = some state) :
    walk (sidePages order bytes side) tree (fuel + 1) handle s =
      if state.tag ≠ 1 then some (s.met tree handle)
      else
        (walk (sidePages order bytes side) tree fuel
          (coreUnsigned (recordAt bytes side handle) 24 4) (s.met tree handle)).bind
        (walk (sidePages order bytes side) tree fuel
          (coreUnsigned (recordAt bytes side handle) 28 4)) := by
  have hr : handle < bookRecordsPerSide := hi.trans (by decide)
  have hl := hu.label handle (mem_singleton_self _)
  have hs := hu.seen handle (mem_singleton_self _)
  rw [walk, if_neg (none_ne hi), if_neg hs, P.byHandle_eq hr, hd]
  simp only [Option.bind_eq_bind, Option.bind_some, hl, Bool.false_eq_true, if_false,
    P.find_page (page_lt hr)]
  split
  · rfl
  · exact (if_neg (not_not.2 (P.length_recordAt side hr))).trans rfl

theorem decode_leaf (hst : (books side).Stores (.leaf i leaf)) : i < bookSlotsPerSide ∧
      ∃ state, decodeBookNode (recordAt bytes side i) i = some state ∧ state.tag = 2 := by
  obtain ⟨hi, hn⟩ := nodeBytes_eq_ok.1 hst.nodeBytes_leaf
  have hr : i < bookRecordsPerSide := hi.trans (by decide)
  have hb := P.nodeBytes side hr
  rw [hn] at hb
  obtain ⟨state, hd, he⟩ := decodeBookNode_leaf (P.length_recordAt side hr) hb i
  exact ⟨hi, state, hd, congrArg V3BookNodeState.tag he⟩

theorem decode_inner {p : ℕ} {rep : Key}
    {child : Bool → BookTree} (hst : (books side).Stores (.inner i p rep child)) :
    i < bookSlotsPerSide ∧ coreUnsigned (recordAt bytes side i) 24 4 = (child false).handle ∧
      coreUnsigned (recordAt bytes side i) 28 4 = (child true).handle ∧
      ∃ state, decodeBookNode (recordAt bytes side i) i = some state ∧ state.tag = 1 := by
  obtain ⟨hi, hn⟩ := nodeBytes_eq_ok.1 hst.nodeBytes_inner
  have hr : i < bookRecordsPerSide := hi.trans (by decide)
  have hb := P.nodeBytes side hr
  rw [hn] at hb
  exact ⟨hi, hb.left, hb.right, decodeBookNode_inner (P.length_recordAt side hr) hb i⟩

/-- The walk from the root of a stored tree labels the tree. -/
theorem walk_stores (hst : (books side).Stores t)
    (hn : t.handles.Nodup) (hf : t.depth < fuel) (hu : Unmet tree t.handles s) :
    ∃ s', walk (sidePages order bytes side) tree fuel t.handle s = some s' ∧
      Labels tree t.handles s s' := by
  induction t generalizing fuel s with
  | leaf i leaf =>
    obtain ⟨fuel, rfl⟩ := Nat.exists_eq_succ_of_ne_zero (Nat.ne_zero_of_lt hf)
    obtain ⟨hi, state, hd, ht⟩ := P.decode_leaf hst
    refine ⟨s.met tree i, ?_, labels_met⟩
    rw [Tree.handle_leaf, P.walk_step hi hu hd, ht, if_pos (by decide)]
  | inner i p rep child ih =>
    obtain ⟨fuel, rfl⟩ := Nat.exists_eq_succ_of_ne_zero (Nat.ne_zero_of_lt hf)
    obtain ⟨hi, hle, hri, state, hd, ht⟩ := P.decode_inner hst
    have hde (c : Bool) : (child c).depth < fuel := by
      have := Tree.depth_child_lt i p rep child c
      omega
    -- the node, its left subtree and its right subtree have no handle in common
    obtain ⟨hnot, hc⟩ := nodup_cons.1 hn
    obtain ⟨hl, hr, hdi⟩ := nodup_append.1 hc
    have hp {hs : List ℕ} (hsub : ∀ j ∈ hs, j ∈ (Tree.inner i p rep child).handles) :
        Unmet tree hs s := ⟨fun j hj => hu.label j (hsub j hj), fun j hj => hu.seen j (hsub j hj)⟩
    have hsub (c : Bool) : ∀ j ∈ (child c).handles, j ∈ (Tree.inner i p rep child).handles :=
      fun j hj => Tree.mem_handles_inner.2 (.inr ⟨c, hj⟩)
    have hse (c : Bool) : ∀ j ∈ (child c).handles, j ∉ [i] := by
      rintro j hj hmem
      obtain rfl := mem_singleton.1 hmem
      refine hnot ?_
      cases c
      · exact mem_append_left _ hj
      · exact mem_append_right _ hj
    have hm : Labels tree [i] s (s.met tree i) := labels_met
    obtain ⟨s₁, hw₁, hl₁⟩ := ih false (hst.2 false) hl (hde false)
      ((hp (hsub false)).after hm (hse false))
    have hu₂ := ((hp (hsub true)).after hm (hse true)).after hl₁ fun j hj hj' => hdi j hj' j hj rfl
    obtain ⟨s₂, hw₂, hl₂⟩ := ih true (hst.2 true) hr (hde true) hu₂
    refine ⟨s₂, ?_, (hm.trans (hl₁.trans hl₂))⟩
    have hs' : Unmet tree [i] s := hp fun j hj => by
      rw [mem_singleton.1 hj]
      exact Tree.handle_mem_handles (Tree.inner i p rep child)
    rw [Tree.handle_inner, P.walk_step hi hs' hd, ht, if_neg (by decide), hle, hri]
    simp only [hw₁, hw₂, Option.bind_some]

theorem byHandle_root (hst : (books side).Stores t) :
    (byHandle (sidePages order bytes side) t.handle).isNone = false := by
  cases t with
  | leaf i leaf =>
    obtain ⟨hi, state, hd, -⟩ := P.decode_leaf hst
    rw [Tree.handle_leaf, P.byHandle_eq (hi.trans (by decide)), hd, Option.isNone_some]
  | inner i p rep child =>
    obtain ⟨hi, -, -, state, hd, -⟩ := P.decode_inner hst
    rw [Tree.handle_inner, P.byHandle_eq (hi.trans (by decide)), hd, Option.isNone_some]

/-- Labelling a tree of a laid out book succeeds, and labels that tree. -/
theorem annotateTree_eq (L : (books side).Layout forest free []) {label : ℕ → Option TreeKind}
    (hl : ∀ i ∈ treeHandles (forest tree), (label i).any (· ≠ tree) = false) :
    annotateTree (sidePages order bytes side) tree ((books side).root tree) label =
      some fun i => if i ∈ treeHandles (forest tree) then some tree else label i := by
  rw [annotateTree, L.root]
  cases hf : forest tree with
  | none => simp [rootHandle, treeHandles, walk]
  | some t =>
    have hst := L.stores tree t hf
    have hn : t.handles.Nodup := by
      have := (nodup_append.1 (L.nodup_loose tree)).1
      rwa [hf] at this
    have hfu : t.depth < bookRecordsPerSide + 2 := (L.depth_lt_fuel hf).trans (by decide)
    have hu : Unmet tree t.handles ⟨label, []⟩ := by
      refine ⟨fun i hi => hl i ?_, fun i _ => not_mem_nil⟩
      rwa [hf]
    obtain ⟨s', hw, hla⟩ := P.walk_stores hst hn hfu hu
    have hr : ¬(t.handle ≠ NONE ∧
        (byHandle (sidePages order bytes side) t.handle).isNone = true) := by
      simp [P.byHandle_root hst]
    calc _ = (walk (sidePages order bytes side) tree (bookRecordsPerSide + 2) t.handle
          ⟨label, []⟩).map Walk.label := if_neg hr
      _ = some s'.label := by rw [hw, Option.map_some]
      _ = _ := congrArg some (funext hla.label)

end

end Pages

def forestLabel (forest : Forest) (i : ℕ) : Option TreeKind :=
  if i ∈ treeHandles (forest .oraclePegged) then some .oraclePegged
  else if i ∈ treeHandles (forest .fixed) then some .fixed
  else none

theorem forestLabel_of_mem
    (L : b.Layout forest free []) (hi : i ∈ treeHandles (forest tree)) :
    forestLabel forest i = some tree := by
  cases tree with
  | fixed => rw [forestLabel, if_neg (L.tree_not_other (by decide) hi), if_pos hi]
  | oraclePegged => rw [forestLabel, if_pos hi]

theorem root_ne
    (L : b.Layout forest free []) :
    ¬(b.root .fixed ≠ NONE ∧ b.root .fixed = b.root .oraclePegged) := by
  rintro ⟨hne, heq⟩
  rw [L.root] at hne
  rw [L.root, L.root] at heq
  cases hf : forest .fixed with
  | none => simp [hf, rootHandle] at hne
  | some t =>
    have hmem : t.handle ∈ treeHandles (forest .fixed) := by
      rw [hf]
      exact Tree.handle_mem_handles t
    have hlt := L.lt_slots (mem_append_left _ (Layout.mem_forestHandles hmem))
    cases hp : forest .oraclePegged with
    | none =>
      rw [hf, hp] at heq
      exact none_ne hlt heq
    | some t' =>
      rw [hf, hp] at heq
      refine L.tree_not_other (show TreeKind.fixed ≠ .oraclePegged by decide) hmem ?_
      rw [hp, show t.handle = t'.handle from heq]
      exact Tree.handle_mem_handles t'

theorem Pages.annotateSide_eq (P : Pages books core order bytes)
    (L : (books side).Layout forest free []) :
    annotateSide (sidePages order bytes side) = some (forestLabel forest) := by
  have hs := P.stored_at side (show 0 < bookPagesPerSide by decide)
  have hf : (pageState (bytes (side, 0))).fixedRoot = (books side).root .fixed := hs.fixedRoot
  have hp : (pageState (bytes (side, 0))).peggedRoot = (books side).root .oraclePegged :=
    hs.peggedRoot
  simp only [annotateSide, P.find_page (show 0 < bookPagesPerSide by decide), Option.elim, hf, hp]
  rw [if_neg (root_ne L), P.annotateTree_eq L (fun _ _ => rfl), Option.bind_eq_bind,
    Option.bind_some, P.annotateTree_eq L]
  · rfl
  · intro i hi
    rw [if_neg (L.tree_not_other (by decide) hi)]
    rfl

end Walking

/-! ## The order book -/

theorem flatMap_leafEntry (b : PagedBookV3) (label : ℕ → Option TreeKind) :
    (range bookPagesPerSide).flatMap (fun index => (range bookNodesPerPage).filterMap
      fun slot => leafEntry label (index * bookNodesPerPage + slot) ((b.pages index).nodes slot)) =
      b.leafRecords.map fun x => entry (label x.1) x.1 x.2 := by
  have hs (index : ℕ) : (range bookNodesPerPage).filterMap (fun slot =>
        leafEntry label (index * bookNodesPerPage + slot) ((b.pages index).nodes slot)) =
      ((range bookNodesPerPage).map (index * bookNodesPerPage + ·)).filterMap
        fun i => leafEntry label i (b.node i) := by
    rw [filterMap_map]
    refine filterMap_congr fun slot hs => ?_
    have hs := mem_range.1 hs
    rw [comp_apply, node, block_div hs, block_mod hs]
  simp only [hs]
  rw [← filterMap_flatMap, range_mul, leafRecords, map_filterMap]
  refine filterMap_congr fun i _ => ?_
  cases b.node i <;> rfl

section OrderBooks

variable {books : Side → PagedBookV3} {order : List (Side × ℕ)} {bytes : Side × ℕ → Bytes}
  {forest : Side → Forest} {free : Side → List ℕ}

def labelledPages (order : List (Side × ℕ)) (bytes : Side × ℕ → Bytes)
    (forest : Side → Forest) : List V3BookPageState :=
  order.map fun k => (pageState (bytes k)).labelled (forestLabel (forest k.1))

theorem Pages.annotateBookTrees_eq (P : Pages books core order bytes)
    (L : ∀ side, (books side).Layout (forest side) (free side) []) :
    annotateBookTrees (order.map fun k => pageState (bytes k)) =
      some (labelledPages order bytes forest) := by
  have hb : annotateSide ((order.map fun k => pageState (bytes k)).filter (·.side = 0)) =
      some (forestLabel (forest .bid)) := P.annotateSide_eq (L .bid)
  have ha : annotateSide ((order.map fun k => pageState (bytes k)).filter (·.side = 1)) =
      some (forestLabel (forest .ask)) := P.annotateSide_eq (L .ask)
  rw [annotateBookTrees, hb, ha]
  simp only [Option.bind_eq_bind, Option.bind_some, Option.pure_def, map_map, labelledPages]
  refine congrArg some (map_congr_left fun k hk => ?_)
  have hs : (pageState (bytes k)).side = k.1.byte := (P.stored k hk).header.first
  rw [comp_apply, hs]
  cases k.1 <;> rfl

def restingEntries (b : PagedBookV3) : List V3BookNodeState :=
  b.restingLeaves.map fun x => entry (some x.1) x.2.1 x.2.2

/-- The labelled leaves of all pages are the resting orders of both books. -/
theorem Pages.perm_leaves (P : Pages books core order bytes)
    (L : ∀ side, (books side).Layout (forest side) (free side) [])
    (hb : ∀ side, (books side).Blank 0) :
    ((((labelledPages order bytes forest).flatMap (·.nodes)).filter (·.tag = 2)).map
      V3BookNodeState.untimed).Perm
      ([bid, ask].flatMap fun side => restingEntries (books side)) := by
  have hp : (((labelledPages order bytes forest).flatMap (·.nodes)).filter (·.tag = 2)).map
      V3BookNodeState.untimed =
      order.flatMap fun k => (range bookNodesPerPage).filterMap fun slot =>
        leafEntry (forestLabel (forest k.1)) (k.2 * bookNodesPerPage + slot)
          (((books k.1).pages k.2).nodes slot) := by
    rw [labelledPages, flatMap_map, filter_flatMap, map_flatMap]
    exact flatMap_congr fun k hk => (P.stored k hk).leaves _
  rw [hp]
  refine (P.perm.flatMap_right _).trans ?_
  simp only [pageKeys, flatMap_assoc, flatMap_map]
  refine Perm.flatMap (.refl _) fun side _ => ?_
  rw [flatMap_leafEntry]
  have hwf : (books side).WellFormed := ⟨_, _, L side⟩
  refine ((hwf.perm_leafRecords (hb side)).symm.map _).trans (.of_eq ?_)
  rw [map_map, restingEntries]
  refine map_congr_left fun x hx => ?_
  have hmem := mem_restingLeaves.1 hx
  rw [(L side).leaves_eq] at hmem
  rw [comp_apply, forestLabel_of_mem (L side) (mem_treeHandles hmem)]

end OrderBooks

theorem orderBookOf_perm {pages : List V3BookPageState}
    (hs : ∀ node ∈ (pages.flatMap (·.nodes)).filter (·.tag = 2),
      node.side = some 0 ∨ node.side = some 1) :
    ((orderBookOf pages).bids ++ (orderBookOf pages).asks).Perm
      ((pages.flatMap (·.nodes)).filter (·.tag = 2)) := by
  refine ((mergeSort_perm _ _).append (mergeSort_perm _ _)).trans ?_
  refine Perm.trans (.of_eq ?_) (filter_append_perm (·.side = some 0) _)
  refine congrArg _ (filter_congr fun node hn => ?_)
  rcases hs node hn with h | h <;> simp [h]

/-! ## The aggregate -/

section Aggregate

variable {books : Side → PagedBookV3} {order : List (Side × ℕ)} {bytes : Side × ℕ → Bytes}

theorem MarketCoreBytes.decode {coreBytes : Bytes} (h : MarketCoreBytes coreBytes) :
    ∃ state, decodeV3Core coreBytes = some state := by
  have hv : validVersion coreBytes v3MarketCoreDiscriminator v3MarketCoreSize = true := by
    simp [validVersion, h.length, h.discriminator, h.version]
  exact ⟨_, if_pos ⟨hv, h.initialized, h.riskConfigVersion⟩⟩

theorem HeaderBytes.validShard {account discriminator : Bytes} {size : ℕ}
    (h : HeaderBytes account discriminator size i 0 core) (hi : i < 4) :
    validShard account discriminator size = true := by
  simp [MarketView.validShard, validVersion, h.length, h.discriminator, h.version, h.first,
    h.second, hi]

/-- The shards of a kind decode, each of them once. -/
theorem Shards.decode {σ : Type} {discriminator : Bytes} {size : ℕ} {accounts : List Bytes}
    (h : Shards discriminator size core accounts) (decode : Bytes → Option σ) (state : Bytes → σ)
    (shard : σ → ℕ) (address : σ → Bytes)
    (hd : ∀ account, validShard account discriminator size = true →
      decode account = some (state account))
    (hsh : ∀ account, shard (state account) = coreUnsigned account 10 1)
    (ha : ∀ account, address (state account) = account.slice 12 32) :
    ∃ states, accounts.mapM decode = some states ∧ (∀ s ∈ states, address s = core) ∧
      (states.map shard).Nodup ∧ states.length = 4 := by
  obtain ⟨order, bytes, hp, rfl, hh⟩ := h
  have hv (i : ℕ) (hi : i ∈ order) : decode (bytes i) = some (state (bytes i)) :=
    hd _ ((hh i hi).validShard (mem_range.1 (hp.mem_iff.1 hi)))
  refine ⟨order.map fun i => state (bytes i), ?_, ?_, ?_, ?_⟩
  · rw [mapM_map]
    exact mapM_eq_some_map hv
  · intro s hs
    obtain ⟨i, hi, rfl⟩ := mem_map.1 hs
    rw [ha, (hh i hi).core]
  · have hse : (order.map fun i => state (bytes i)).map shard = order := by
      rw [map_map]
      refine (map_congr_left fun i hi => ?_).trans (map_id order)
      exact (hsh _).trans (hh i hi).first
    rw [hse]
    exact hp.nodup_iff.2 nodup_range
  · rw [length_map, hp.length_eq, length_range]

namespace Pages

theorem mapM_decode (P : Pages books core order bytes)
    (hv : ∀ side, (books side).headersValid = true) :
    (order.map bytes).mapM decodeV3BookPage = some (order.map fun k => pageState (bytes k)) := by
  rw [mapM_map]
  refine mapM_eq_some_map fun k hk => ?_
  have hi := P.mem_order.1 hk
  have hh := hv k.1
  simp only [headersValid, Bool.and_eq_true, decide_eq_true_eq, all_eq_true, mem_range] at hh
  obtain ⟨⟨hf, hbu⟩, ht⟩ := hh
  obtain ⟨side, index⟩ := k
  cases index with
  | zero => exact decodeV3BookPage_eq (P.stored _ hk) hi hbu hf
  | succ page =>
    have hb := ht page (Nat.lt_sub_of_add_lt hi)
    simp only [BookPage.headerBlank, Bool.and_eq_true, decide_eq_true_eq] at hb
    refine decodeV3BookPage_eq (P.stored _ hk) hi ?_ ?_
    · rw [hb.2]
      exact Nat.zero_le _
    · rw [hb.1.2]
      exact Nat.zero_le _

theorem map_index (P : Pages books core order bytes) :
    ((order.map fun k => pageState (bytes k)).map (·.index)).Nodup := by
  have hi : (order.map fun k => pageState (bytes k)).map (·.index) =
      order.map fun k => k.1.byte * bookPagesPerSide + k.2 := by
    rw [map_map]
    refine map_congr_left fun k hk => ?_
    have hh := (P.stored k hk).header
    rw [comp_apply, V3BookPageState.index]
    exact congrArg₂ (fun side page => side * bookPagesPerSide + page) hh.first hh.second
  rw [hi, (P.perm.map _).nodup_iff]
  decide

end Pages

/-- An order book with one entry for each resting order of two books, on the side that the order
carries, and with nothing else. -/
structure OrderBook.Shows (view : OrderBook) (books : Side → PagedBookV3) : Prop where
  perm : ((view.bids ++ view.asks).map V3BookNodeState.untimed).Perm
    ([bid, ask].flatMap fun side => restingEntries (books side))
  bids : ∀ node ∈ view.bids, node.side = some 0
  asks : ∀ node ∈ view.asks, node.side = some 1

theorem side_of_mem_entries {node : V3BookNodeState}
    (h : node.untimed ∈ [bid, ask].flatMap fun side => restingEntries (books side)) :
    node.side = some 0 ∨ node.side = some 1 := by
  obtain ⟨side, -, hs⟩ := mem_flatMap.1 h
  obtain ⟨x, -, hx⟩ := mem_map.1 hs
  have hn : some x.2.2.side.byte = node.side := congrArg V3BookNodeState.side hx
  rw [← hn]
  cases x.2.2.side
  · exact .inl rfl
  · exact .inr rfl

theorem Pages.shows (P : Pages books core order bytes) {forest : Side → Forest}
    {free : Side → List ℕ} (L : ∀ side, (books side).Layout (forest side) (free side) [])
    (hb : ∀ side, (books side).Blank 0) :
    (orderBookOf (labelledPages order bytes forest)).Shows books where
  perm := by
    have hl := P.perm_leaves L hb
    refine Perm.trans (Perm.map _ (orderBookOf_perm fun node hn => ?_)) hl
    exact side_of_mem_entries (hl.mem_iff.1 (mem_map_of_mem hn))
  bids node hn := by
    have hmem := (mergeSort_perm _ _).mem_iff.1 hn
    exact of_decide_eq_true (mem_filter.1 hmem).2
  asks node hn := by
    have hmem := (mergeSort_perm _ _).mem_iff.1 hn
    exact of_decide_eq_true (mem_filter.1 hmem).2

/-- A bundle of well-formed books aggregates, and the aggregate shows the books. -/
theorem Bundle.aggregate {coreBytes coreAddress : Bytes}
    {bookBytes seatBytes eventBytes : List Bytes}
    (h : Bundle books coreBytes bookBytes seatBytes eventBytes coreAddress)
    (hwf : ∀ side, (books side).WellFormed) (hb : ∀ side, (books side).Blank 0)
    (hv : ∀ side, (books side).headersValid = true) (now : ℕ) (asOfSlot : Option ℕ) :
    ∃ aggregate, aggregateV3Market now coreBytes bookBytes seatBytes eventBytes coreAddress
        asOfSlot = some aggregate ∧
      aggregate.completeExecutionState = true ∧ aggregate.orderBook.Shows books ∧
      decodeV3Core coreBytes = some aggregate.core ∧
      aggregate.mark = executableV3Mark aggregate.core aggregate.orderBook.bids
        aggregate.orderBook.asks now := by
  obtain ⟨hc, ⟨order, bytes, rfl, P⟩, hs, he⟩ := h
  choose forest free L using hwf
  obtain ⟨coreState, hc⟩ := hc.decode
  obtain ⟨seats, hs, hse, hseat, hsea⟩ := hs.decode
    decodeV3SeatShard seatShardState (·.shard) (·.core) (fun _ hv => if_pos hv)
    (fun _ => rfl) (fun _ => rfl)
  obtain ⟨events, he, hev, heven, heve⟩ := he.decode
    decodeV3EventShard eventShardState (·.shard) (·.core) (fun _ hv => if_pos hv)
    (fun _ => rfl) (fun _ => rfl)
  have hpa : ∀ page ∈ order.map fun k => pageState (bytes k), page.core = coreAddress := by
    intro page hp
    obtain ⟨k, hk, rfl⟩ := mem_map.1 hp
    exact (P.stored k hk).header.core
  have hl : (order.map fun k => pageState (bytes k)).length = 2 * bookPagesPerSide := by
    rw [length_map, P.perm.length_eq]
    rfl
  have hco : (∀ page ∈ order.map fun k => pageState (bytes k), page.core = coreAddress) ∧
      (∀ shard ∈ seats, shard.core = coreAddress) ∧
      (∀ shard ∈ events, shard.core = coreAddress) := ⟨hpa, hse, hev⟩
  simp only [aggregateV3Market, hc, P.mapM_decode hv, hs, he, guard, if_pos hco,
    P.map_index, hseat, heven, P.annotateBookTrees_eq L, Option.bind_eq_bind,
    Option.bind_some, Option.pure_def, decide_true, and_self, if_true, hl, hsea,
    heve, Bool.and_self, Option.some.injEq, exists_eq_left', true_and, and_true]
  exact P.shows L hb

/-- What every book reached from opened pages has. -/
structure Viewable (b : PagedBookV3) : Prop where
  implements : ∃ m, b.Implements m
  blank : b.Blank 0
  tail : ∀ page < bookPagesPerSide - 1, b.tailBlank page = true

theorem viewable_of_run {b' : PagedBookV3} {ops : List BookOp} (ho : b.Opened)
    (hr : Run Succeeds b ops b') : Viewable b' := by
  have hi : Viewable b := ⟨⟨_, ho.prepared.implements⟩, ho.blank, ho.prepared.tailBlank⟩
  refine hr.invariant hi fun op b b' h hs => ?_
  obtain ⟨m, hm⟩ := h.implements
  obtain ⟨m', -, hm'⟩ := hm.step hs
  refine ⟨⟨m', hm'⟩, h.blank.step hs, fun page hp => ?_⟩
  rw [kept_of_ok tailBlank hs, h.tail page hp]

theorem Viewable.wf (h : Viewable b) : b.WellFormed := by
  obtain ⟨_, hm⟩ := h.implements
  exact hm.1

/-- On every bundle whose books were reached by successful operations from opened pages, the worker
aggregates the market, and its order book shows each resting order of both books once, with the
order's fields and its tree, and nothing else. -/
theorem aggregate_exact {opened : Side → PagedBookV3} {ops : Side → List BookOp}
    (hopened : ∀ side, (opened side).Opened)
    (hrun : ∀ side, Run Succeeds (opened side) (ops side) (books side))
    {coreBytes coreAddress : Bytes} {bookBytes seatBytes eventBytes : List Bytes}
    (hbundle : Bundle books coreBytes bookBytes seatBytes eventBytes coreAddress)
    (now : ℕ) (asOfSlot : Option ℕ) :
    ∃ aggregate, aggregateV3Market now coreBytes bookBytes seatBytes eventBytes coreAddress
        asOfSlot = some aggregate ∧
      aggregate.completeExecutionState = true ∧ aggregate.orderBook.Shows books := by
  have hv (side : Side) := viewable_of_run (hopened side) (hrun side)
  obtain ⟨aggregate, ha, hc, hs, -⟩ := hbundle.aggregate
    (fun side => (hv side).wf) (fun side => (hv side).blank)
    (fun side => (hv side).wf.headersValid_of_tailBlank (hv side).tail) now asOfSlot
  exact ⟨aggregate, ha, hc, hs⟩

def shownBid (price : I64) (sequence : U64) : LeafNode where
  side := .bid
  owner := 7
  key := packKey (priceWord .bid price) sequence
  quantity := 3
  expiresAt := 1000
  pegLimit := 0
  clientOrderId := 5
  priceOrOffset := price
  sequence := sequence
  postOnly := false
  reservePrice := 0

/-- Two bids, the second in the slot of one that was removed. -/
def shownOps : Side → List BookOp
  | .bid => [.insert .fixed (shownBid 90 1), .insert .fixed (shownBid 100 2),
      .remove .fixed (shownBid 90 1).key, .insert .fixed (shownBid 95 3)]
  | .ask => []

def shownBooks (side : Side) : PagedBookV3 := finalState ((shownOps side).forM exec .fresh)

theorem shownBooks_run (side : Side) :
    Run Succeeds .fresh (shownOps side) (shownBooks side) :=
  run_of_forM (by cases side <;> decide +kernel)

theorem shownBooks_fits (side : Side) :
    ∀ page < bookPagesPerSide, PageFits ((shownBooks side).pages page) := by
  cases side <;> decide +kernel

def shownShards (discriminator : Bytes) (size : ℕ) : List Bytes :=
  (range 4).map (encodeShard discriminator size (replicate 32 1))

theorem aggregate_exact_of_shownBooks :
    ∃ aggregate, aggregateV3Market 10 (encodeCore 1 true 100 0)
        (encodePages (replicate 32 1) shownBooks)
        (shownShards v3SeatShardDiscriminator v3SeatShardSize)
        (shownShards v3EventShardDiscriminator v3EventShardSize) (replicate 32 1) none =
          some aggregate ∧
      aggregate.completeExecutionState = true ∧ aggregate.orderBook.Shows shownBooks :=
  aggregate_exact (fun _ => opened_fresh) shownBooks_run
    (bundle_encode (length_replicate) shownBooks_fits 1 true 100 0) 10 none

end Aggregate

end MarketView

end Equinox
