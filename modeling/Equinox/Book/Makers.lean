import Equinox.Book.Contents
import Equinox.Foundation.Selection

/-! # Makers in price-time order

The planner rescans all slots for every maker it selects. On a well-formed book
this walks the list of executable makers, sorted by price and then by sequence;
makers with the same price and sequence stand in the order of the scan.
-/

namespace Equinox

open Foundation CritBit List

/-- An order that can execute, with the price it executes at. -/
structure Maker where
  tree : TreeKind
  handle : ℕ
  leaf : LeafNode
  price : I64

namespace Maker

def place (x : Maker) : TreeKind × ℕ := (x.tree, x.handle)

def rank (side : Side) (x : Maker) : Key := packKey (priceWord side x.price) x.leaf.sequence

def candidate (side : Side) (x : Maker) : Candidate :=
  { key := x.rank side, tree := x.tree, handle := x.handle, price := x.price }

end Maker

def visit (place : TreeKind × ℕ) : ℕ ×ₗ ℕ :=
  toLex (match place.1 with
    | .fixed => 0
    | .oraclePegged => 1, place.2)

/-- The price-time key of a maker, and when the scan visits it. -/
def Maker.priority (side : Side) (x : Maker) : Key ×ₗ (ℕ ×ₗ ℕ) :=
  toLex (x.rank side, visit x.place)

def Candidate.visit (c : Candidate) : ℕ ×ₗ ℕ := Equinox.visit (c.tree, c.handle)

namespace PagedBookV3

variable {b : PagedBookV3} {tree : TreeKind} {side : Side} {oracle : Option I64} {now i : ℕ}
  {leaf : LeafNode} {price : I64} {x y : Maker}

def offers (b : PagedBookV3) (side : Side) (oracle : Option I64) (now : ℕ) (tree : TreeKind) :
    List Maker :=
  (b.leaves tree).filterMap fun entry =>
    (executablePrice entry.2 tree side oracle now).map fun price =>
      { tree, handle := entry.1, leaf := entry.2, price }

/-- The executable orders of both trees, best first. -/
def makers (b : PagedBookV3) (side : Side) (oracle : Option I64) (now : ℕ) : List Maker :=
  (b.offers side oracle now .fixed ++ b.offers side oracle now .oraclePegged).insertionSort
    fun x y => x.rank side ≤ y.rank side

/-- The executable orders of both trees in the order in which the planner selects them. -/
def queue (b : PagedBookV3) (side : Side) (oracle : Option I64) (now : ℕ) : List Maker :=
  (b.offers side oracle now .fixed ++ b.offers side oracle now .oraclePegged).insertionSort
    fun x y => x.priority side ≤ y.priority side

/-- No two orders of the book were placed with the same sequence. -/
def DistinctSequences (b : PagedBookV3) : Prop :=
  ((b.leaves .fixed ++ b.leaves .oraclePegged).map fun entry => entry.2.sequence).Nodup

/-! ## Executable prices -/

theorem peggedState_pos (h : peggedState leaf oracle now = .valid price) : 0 < price.val := by
  unfold peggedState at h
  split at h
  · simp at h
  · split at h
    · simp at h
    · split at h
      · simp at h
      · dsimp only at h
        split_ifs at h with hle
        simp only [PeggedState.valid.injEq] at h
        subst h
        omega

theorem executablePrice_eq_some
    (h : executablePrice leaf tree side oracle now = some price) :
    0 < price.val ∧ leaf.quantity ≠ 0 ∧ now < leaf.expiresAt ∧ leaf.side = side := by
  unfold executablePrice at h
  split at h
  · simp at h
  · rename_i hl
    push Not at hl
    refine ⟨?_, hl.1, hl.2.1, hl.2.2⟩
    cases tree with
    | fixed =>
      dsimp only at h
      split at h
      · simp at h
      · simp only [Option.some.injEq] at h
        subst h
        omega
    | oraclePegged =>
      dsimp only at h
      split at h
      · simp only [Option.some.injEq] at h
        subst h
        exact peggedState_pos ‹_›
      all_goals simp at h

/-! ## The list of makers -/

theorem mem_offers : x ∈ b.offers side oracle now tree ↔ x.tree = tree ∧
    (x.handle, x.leaf) ∈ b.leaves tree ∧
    executablePrice x.leaf tree side oracle now = some x.price := by
  simp only [offers, mem_filterMap, Option.map_eq_some_iff]
  constructor
  · rintro ⟨⟨i, leaf⟩, hmem, price, hp, rfl⟩
    exact ⟨rfl, hmem, hp⟩
  · rintro ⟨rfl, hmem, hp⟩
    exact ⟨_, hmem, _, hp, rfl⟩

theorem mem_offers_append :
    x ∈ b.offers side oracle now .fixed ++ b.offers side oracle now .oraclePegged ↔
      (x.handle, x.leaf) ∈ b.leaves x.tree ∧
        executablePrice x.leaf x.tree side oracle now = some x.price := by
  rw [mem_append, mem_offers, mem_offers]
  constructor
  · rintro (⟨h, h'⟩ | ⟨h, h'⟩)
    · exact h ▸ h'
    · exact h ▸ h'
  · intro h
    cases ht : x.tree with
    | fixed => exact .inl ⟨rfl, ht ▸ h⟩
    | oraclePegged => exact .inr ⟨rfl, ht ▸ h⟩

theorem mem_makers : x ∈ b.makers side oracle now ↔ (x.handle, x.leaf) ∈ b.leaves x.tree ∧
    executablePrice x.leaf x.tree side oracle now = some x.price := by
  rw [makers, mem_insertionSort, mem_offers_append]

theorem mem_queue : x ∈ b.queue side oracle now ↔ (x.handle, x.leaf) ∈ b.leaves x.tree ∧
    executablePrice x.leaf x.tree side oracle now = some x.price := by
  rw [queue, mem_insertionSort, mem_offers_append]

theorem rank_inj {side : Side} (h : x.rank side = y.rank side) :
    x.leaf.sequence = y.leaf.sequence := by
  have hv := congrArg Fin.val h
  simp only [Maker.rank, packKey] at hv
  have hx := x.leaf.sequence.isLt
  have hy := y.leaf.sequence.isLt
  apply Fin.ext
  omega

theorem offers_sublist (b : PagedBookV3) (side : Side) (oracle : Option I64) (now : ℕ)
    (tree : TreeKind) : ((b.offers side oracle now tree).map fun x => (x.handle, x.leaf)).Sublist
      (b.leaves tree) := by
  unfold offers
  induction b.leaves tree with
  | nil => exact .slnil
  | cons entry l ih =>
    cases hp : executablePrice entry.2 tree side oracle now with
    | none => simpa [hp] using ih.cons _
    | some price => simpa [hp] using ih

theorem offers_sequences_sublist (b : PagedBookV3) (side : Side) (oracle : Option I64) (now : ℕ)
    (tree : TreeKind) : ((b.offers side oracle now tree).map fun x => x.leaf.sequence).Sublist
      ((b.leaves tree).map fun entry => entry.2.sequence) := by
  have h := (b.offers_sublist side oracle now tree).map fun entry => entry.2.sequence
  rwa [map_map] at h

theorem makers_sequences_nodup (h : b.DistinctSequences) :
    ((b.makers side oracle now).map fun x => x.leaf.sequence).Nodup := by
  refine ((perm_insertionSort _ _).map _).nodup_iff.2 ?_
  rw [DistinctSequences, map_append] at h
  rw [map_append]
  exact h.sublist ((offers_sequences_sublist ..).append (offers_sequences_sublist ..))

theorem makers_sorted (h : b.DistinctSequences) :
    (b.makers side oracle now).Pairwise fun x y => x.rank side < y.rank side := by
  have hle : (b.makers side oracle now).Pairwise fun x y => x.rank side ≤ y.rank side := by
    have : Std.Total fun x y : Maker => x.rank side ≤ y.rank side := ⟨fun x y => le_total _ _⟩
    have : IsTrans Maker fun x y => x.rank side ≤ y.rank side := ⟨fun _ _ _ => le_trans⟩
    exact pairwise_insertionSort _ _
  have hne : (b.makers side oracle now).Pairwise fun x y => x.leaf.sequence ≠ y.leaf.sequence := by
    rw [← pairwise_map (f := fun x : Maker => x.leaf.sequence) (R := (· ≠ ·))]
    exact makers_sequences_nodup h
  refine (hle.and hne).imp fun {x y} hxy => ?_
  exact lt_of_le_of_ne hxy.1 fun heq => hxy.2 (rank_inj heq)

theorem visit_inj {p q : TreeKind × ℕ} (h : visit p = visit q) : p = q := by
  obtain ⟨tree, i⟩ := p
  obtain ⟨tree', j⟩ := q
  cases tree <;> cases tree' <;> simp_all [visit]

theorem WellFormed.handles_nodup (hb : b.WellFormed) (tree : TreeKind) :
    ((b.leaves tree).map Prod.fst).Nodup := by
  have hnd : (b.leaves tree).Nodup :=
    (hb.leaves_sorted tree).imp fun hlt heq => absurd (heq ▸ hlt) (lt_irrefl _)
  refine hnd.map_on fun x hx y hy heq => Prod.ext heq ?_
  have hl := hb.leaf_eq (i := x.1) hx
  rw [heq, hb.leaf_eq (i := y.1) hy] at hl
  exact (Except.ok.inj hl).symm

theorem WellFormed.offers_places_nodup (hb : b.WellFormed) :
    ((b.offers side oracle now .fixed ++ b.offers side oracle now .oraclePegged).map
      Maker.place).Nodup := by
  have ho (tree : TreeKind) : ((b.offers side oracle now tree).map Maker.place).Nodup := by
    refine Nodup.of_map Prod.snd ?_
    rw [map_map]
    have h := ((b.offers_sublist side oracle now tree).map Prod.fst).nodup (hb.handles_nodup tree)
    rwa [map_map] at h
  rw [map_append]
  refine nodup_append.2 ⟨ho .fixed, ho .oraclePegged, ?_⟩
  intro p hp q hq heq
  obtain ⟨x, hx, rfl⟩ := mem_map.1 hp
  obtain ⟨y, hy, rfl⟩ := mem_map.1 hq
  have ht : x.tree = y.tree := congrArg Prod.fst heq
  rw [(mem_offers.1 hx).1, (mem_offers.1 hy).1] at ht
  contradiction

theorem WellFormed.queue_places_nodup (hb : b.WellFormed) :
    ((b.queue side oracle now).map Maker.place).Nodup :=
  ((perm_insertionSort _ _).map _).nodup_iff.2 hb.offers_places_nodup

theorem WellFormed.place_inj (hb : b.WellFormed) (hx : x ∈ b.queue side oracle now)
    (hy : y ∈ b.queue side oracle now) (h : x.place = y.place) : x = y :=
  inj_on_of_nodup_map hb.queue_places_nodup hx hy h

theorem WellFormed.queue_sorted (hb : b.WellFormed) :
    (b.queue side oracle now).Pairwise fun x y => x.priority side < y.priority side := by
  have hle : (b.queue side oracle now).Pairwise fun x y => x.priority side ≤ y.priority side := by
    have : Std.Total fun x y : Maker => x.priority side ≤ y.priority side :=
      ⟨fun x y => le_total _ _⟩
    have : IsTrans Maker fun x y => x.priority side ≤ y.priority side := ⟨fun _ _ _ => le_trans⟩
    exact pairwise_insertionSort _ _
  have hne : (b.queue side oracle now).Pairwise fun x y => x.place ≠ y.place := by
    rw [← pairwise_map (f := Maker.place) (R := (· ≠ ·))]
    exact hb.queue_places_nodup
  refine (hle.and hne).imp fun {x y} hxy => ?_
  refine lt_of_le_of_ne hxy.1 fun heq => hxy.2 (visit_inj ?_)
  exact (Prod.mk.inj (toLex.injective heq)).2

theorem rank_le_of_priority_lt (h : x.priority side < y.priority side) :
    x.rank side ≤ y.rank side := by
  rcases Prod.Lex.toLex_lt_toLex.1 h with hlt | ⟨heq, -⟩
  · exact hlt.le
  · exact heq.le

theorem WellFormed.queue_eq_makers (hb : b.WellFormed) (hs : b.DistinctSequences) :
    b.queue side oracle now = b.makers side oracle now := by
  have hp : (b.queue side oracle now).Perm (b.makers side oracle now) :=
    (perm_insertionSort _ _).trans (perm_insertionSort _ _).symm
  refine Perm.eq_of_pairwise ?_ (hb.queue_sorted.imp rank_le_of_priority_lt)
    ((makers_sorted hs).imp le_of_lt) hp
  intro x y hx hy hxy hyx
  exact inj_on_of_nodup_map (makers_sequences_nodup hs) (hp.mem_iff.1 hx) hy
    (rank_inj (le_antisymm hxy hyx))

/-! ## The planner's scan -/

variable {selected : List (TreeKind × ℕ)} {c : Candidate}

theorem WellFormed.mem_leaves_iff (hb : b.WellFormed) :
    (i, leaf) ∈ b.leaves tree ↔ b.leaf i = .ok leaf ∧ b.find tree leaf.key = .ok i := by
  constructor
  · exact fun h => ⟨hb.leaf_eq h, hb.find_eq_ok.2 ⟨leaf, h, rfl⟩⟩
  · rintro ⟨hl, hf⟩
    obtain ⟨leaf', hmem, -⟩ := hb.find_eq_ok.1 hf
    obtain rfl : leaf = leaf' := by simpa [hl] using hb.leaf_eq hmem
    exact hmem

theorem priceTimeKey_of_pos (h : 0 < price.val) (sequence : U64) :
    priceTimeKey side price sequence = .ok (packKey (priceWord side price) sequence) := by
  simp [priceTimeKey, require, h, bind, Except.bind, pure, Except.pure]

theorem candidate_of_leaf (hn : b.nodeBytes i = .ok (.leaf leaf))
    (hf : b.find tree leaf.key = .ok i) (hs : (tree, i) ∉ selected) :
    b.candidate tree side oracle now selected i =
      .ok ((executablePrice leaf tree side oracle now).map fun price =>
        Maker.candidate side ⟨tree, i, leaf, price⟩) := by
  simp only [candidate, if_neg hs, hn, ok_bind, if_pos hf]
  cases hp : executablePrice leaf tree side oracle now with
  | none => rfl
  | some price =>
    simp only [priceTimeKey_of_pos (executablePrice_eq_some hp).1]
    rfl

/-- The scan never fails at a slot in use, and sees there exactly an unselected maker. -/
theorem WellFormed.candidate_eq_ok (hb : b.WellFormed) (hi : i < b.bumpIndex) :
    (∃ o, b.candidate tree side oracle now selected i = .ok o) ∧
      (b.candidate tree side oracle now selected i = .ok (some c) ↔
        ∃ x ∈ b.queue side oracle now, x.place = (tree, i) ∧ x.place ∉ selected ∧
          x.candidate side = c) := by
  have hnone (hno : ∀ x ∈ b.queue side oracle now, x.place = (tree, i) → x.place ∈ selected)
      (h : b.candidate tree side oracle now selected i = .ok none) :
      (∃ o, b.candidate tree side oracle now selected i = .ok o) ∧
        (b.candidate tree side oracle now selected i = .ok (some c) ↔
          ∃ x ∈ b.queue side oracle now, x.place = (tree, i) ∧ x.place ∉ selected ∧
            x.candidate side = c) := by
    refine ⟨⟨_, h⟩, ?_⟩
    rw [h]
    refine iff_of_false (by simp) ?_
    rintro ⟨x, hx, hp, hs, -⟩
    exact hs (hno x hx hp)
  by_cases hs : (tree, i) ∈ selected
  · exact hnone (fun x _ hp => hp ▸ hs) (by simp [candidate, hs, pure, Except.pure])
  have hn : b.nodeBytes i = .ok (b.node i) := nodeBytes_eq_ok.2 ⟨hi.trans_le hb.bump_le, rfl⟩
  by_cases hmem : ∃ leaf, (i, leaf) ∈ b.leaves tree
  · obtain ⟨leaf, hmem⟩ := hmem
    obtain ⟨hl, hf⟩ := hb.mem_leaves_iff.1 hmem
    rw [candidate_of_leaf (leaf_eq_ok.1 hl) hf hs]
    refine ⟨⟨_, rfl⟩, ?_⟩
    simp only [Except.ok.injEq, Option.map_eq_some_iff]
    constructor
    · rintro ⟨price, hpr, rfl⟩
      exact ⟨⟨tree, i, leaf, price⟩, mem_queue.2 ⟨hmem, hpr⟩, rfl, hs, rfl⟩
    · rintro ⟨⟨_, _, leaf', price⟩, hx, hp, -, rfl⟩
      simp only [Maker.place, Prod.mk.injEq] at hp
      obtain ⟨rfl, rfl⟩ := hp
      obtain ⟨hm', hpr⟩ := mem_queue.1 hx
      obtain rfl : leaf = leaf' := by simpa [hl] using hb.leaf_eq hm'
      exact ⟨price, hpr, rfl⟩
  · refine hnone ?_ ?_
    · rintro ⟨_, _, leaf, _⟩ hx hp
      simp only [Maker.place, Prod.mk.injEq] at hp
      obtain ⟨rfl, rfl⟩ := hp
      exact absurd ⟨leaf, (mem_queue.1 hx).1⟩ hmem
    · simp only [candidate, if_neg hs, hn, ok_bind]
      split
      · rename_i leaf hl
        rw [if_neg]
        · rfl
        · intro hf
          refine hmem ⟨leaf, hb.mem_leaves_iff.2 ⟨leaf_eq_ok.2 ?_, hf⟩⟩
          rw [Holds, hn, hl]
          rfl
      · rfl

def Selected (selected : List (TreeKind × ℕ)) (done : List Maker) : Prop :=
  ∀ p, p ∈ selected ↔ ∃ x ∈ done, x.place = p

variable {done : List Maker}

theorem Selected.snoc (h : Selected selected done) (x : Maker) :
    Selected (selected ++ [x.place]) (done ++ [x]) := by
  intro p
  simp only [mem_append, mem_singleton, h p]
  constructor
  · rintro (⟨y, hy, rfl⟩ | rfl)
    · exact ⟨y, .inl hy, rfl⟩
    · exact ⟨x, .inr rfl, rfl⟩
  · rintro ⟨y, hy | rfl, rfl⟩
    · exact .inl ⟨y, hy, rfl⟩
    · exact .inr rfl

variable {rest : List Maker}

theorem WellFormed.not_selected_iff (hb : b.WellFormed)
    (hs : b.queue side oracle now = done ++ rest)
    (hsel : Selected selected done) (hx : x ∈ b.queue side oracle now) :
    x.place ∉ selected ↔ x ∈ rest := by
  have hso : (b.queue side oracle now).Pairwise fun x y => x.priority side < y.priority side :=
    hb.queue_sorted
  rw [hs] at hso
  rw [hsel x.place]
  constructor
  · intro hno
    rw [hs] at hx
    exact (mem_append.1 hx).resolve_left fun hd => hno ⟨x, hd, rfl⟩
  · rintro hr ⟨y, hy, hp⟩
    have hy' : y ∈ b.queue side oracle now := hs ▸ mem_append_left rest hy
    obtain rfl := hb.place_inj hy' hx hp
    exact lt_irrefl _ ((pairwise_append.1 hso).2.2 y hy y hr)

theorem WellFormed.exists_candidate_iff (hb : b.WellFormed)
    (hs : b.queue side oracle now = done ++ rest)
    (hsel : Selected selected done) : (∃ i ∈ range b.bumpIndex,
      b.candidate tree side oracle now selected i = .ok (some c)) ↔
        ∃ x ∈ rest, x.tree = tree ∧ x.candidate side = c := by
  constructor
  · rintro ⟨i, hi, h⟩
    obtain ⟨x, hx, hp, hno, rfl⟩ := (hb.candidate_eq_ok (mem_range.1 hi)).2.1 h
    exact ⟨x, (hb.not_selected_iff hs hsel hx).1 hno, congrArg Prod.fst hp, rfl⟩
  · rintro ⟨x, hx, rfl, rfl⟩
    have hmem : x ∈ b.queue side oracle now := hs ▸ mem_append_right done hx
    have hi := hb.handle_lt_bump (mem_queue.1 hmem).1
    exact ⟨x.handle, mem_range.2 hi, (hb.candidate_eq_ok hi).2.2
      ⟨x, hmem, rfl, (hb.not_selected_iff hs hsel hmem).2 hx, rfl⟩⟩

theorem bestUnselectedAcross_eq_scan (b : PagedBookV3) (trees : List TreeKind) (side : Side)
    (oracle : Option I64) (now : ℕ) (selected : List (TreeKind × ℕ)) :
    b.bestUnselectedAcross trees side oracle now selected =
      trees.foldlM (fun best tree => (range b.bumpIndex).foldlM
        (scanStep Candidate.key (b.candidate tree side oracle now selected)) best) none := by
  unfold bestUnselectedAcross
  congr 1
  ext1 best
  ext1 tree
  congr 1
  ext1 best
  ext1 handle
  unfold scanStep
  rcases b.candidate tree side oracle now selected handle with e | _ | next
  · rfl
  · rfl
  · cases best <;> rfl

theorem WellFormed.candidate_visit (hb : b.WellFormed) (hi : i ∈ range b.bumpIndex)
    (h : b.candidate tree side oracle now selected i = .ok (some c)) :
    c.visit = visit (tree, i) := by
  obtain ⟨x, -, hp, -, rfl⟩ := (hb.candidate_eq_ok (mem_range.1 hi)).2.1 h
  exact congrArg visit hp

theorem WellFormed.candidates_ascending (hb : b.WellFormed) (tree : TreeKind) :
    (range b.bumpIndex).Pairwise fun i j => ∀ c d,
      b.candidate tree side oracle now selected i = .ok (some c) →
      b.candidate tree side oracle now selected j = .ok (some d) → c.visit < d.visit := by
  refine pairwise_lt_range.imp_of_mem fun {i j} hi hj hlt c d hc hd => ?_
  rw [hb.candidate_visit hi hc, hb.candidate_visit hj hd]
  exact Prod.Lex.toLex_lt_toLex.2 (.inr ⟨rfl, hlt⟩)

/-- The scan finds the best maker that is not yet selected. -/
theorem WellFormed.bestUnselectedAcross_eq (hb : b.WellFormed)
    (hsp : b.queue side oracle now = done ++ rest)
    (hsel : Selected selected done) :
    b.bestUnselectedAcross [.fixed, .oraclePegged] side oracle now selected =
      .ok (rest.head?.map (Maker.candidate side)) := by
  have hs (tree : TreeKind) : ∀ i ∈ range b.bumpIndex,
      ∃ o, b.candidate tree side oracle now selected i = .ok o := fun i hi =>
    (hb.candidate_eq_ok (c := ⟨0, .fixed, 0, 0⟩) (mem_range.1 hi)).1
  let key : Candidate → Key ×ₗ (ℕ ×ₗ ℕ) := fun c => toLex (c.key, c.visit)
  have he : Least key ∅ none := least_none
  obtain ⟨o₁, h₁, hl₁⟩ := least_foldlM (hs .fixed) he
  obtain ⟨o₂, h₂, hl₂⟩ := least_foldlM (hs .oraclePegged) hl₁
  have hr : b.bestUnselectedAcross [.fixed, .oraclePegged] side oracle now selected = .ok o₂ := by
    have hf : ∀ c, o₁ = some c → ∀ j ∈ range b.bumpIndex, ∀ d,
        b.candidate .oraclePegged side oracle now selected j = .ok (some d) →
          c.visit < d.visit := by
      rintro c rfl j hj d hd
      obtain hmem | ⟨i, hi, hc⟩ := hl₁.1
      · exact absurd hmem (Set.notMem_empty c)
      · rw [hb.candidate_visit hi hc, hb.candidate_visit hj hd]
        exact Prod.Lex.toLex_lt_toLex.2 (.inl Nat.zero_lt_one)
    rw [bestUnselectedAcross_eq_scan, foldlM_cons,
      foldlM_scanStep_lex (hb.candidates_ascending .fixed) (by simp), h₁, ok_bind,
      foldlM_cons, foldlM_scanStep_lex (hb.candidates_ascending .oraclePegged) hf, h₂]
    rfl
  have hl : Least key {c | c ∈ rest.map (Maker.candidate side)} o₂ := by
    convert hl₂ using 1
    ext c
    simp only [Set.mem_ofPred_eq, Set.mem_empty_iff_false, false_or, mem_map,
      hb.exists_candidate_iff hsp hsel]
    constructor
    · rintro ⟨x, hx, rfl⟩
      cases ht : x.tree with
      | fixed => exact .inl ⟨x, hx, ht, rfl⟩
      | oraclePegged => exact .inr ⟨x, hx, ht, rfl⟩
    · rintro (⟨x, hx, -, rfl⟩ | ⟨x, hx, -, rfl⟩)
      · exact ⟨x, hx, rfl⟩
      · exact ⟨x, hx, rfl⟩
  have hso : (b.queue side oracle now).Pairwise fun x y => x.priority side < y.priority side :=
    hb.queue_sorted
  rw [hsp] at hso
  rw [hr, hl.eq_head? (pairwise_map.2 (pairwise_append.1 hso).2.1), head?_map]

end PagedBookV3

end Equinox
