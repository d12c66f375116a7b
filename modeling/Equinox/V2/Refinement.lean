import Equinox.Book.Refusal
import Equinox.V2.Cancels

/-! # The arena as two finite maps

The operations of a valid arena act on two finite maps from keys to resting
orders as their names say, and a refused operation leaves the maps. There are two
exceptions. An insertion that is refused with one free slot left gives that slot
back to the cursor when it is the last of the arena, although it is not unused.
A cancellation whose sums do not fit has already removed orders when it fails.
-/

namespace Equinox

def AbstractBook.eraseAll (m : AbstractBook) (keys : List (TreeKind × Key)) : AbstractBook :=
  keys.foldl (fun m x => m.erase x.1 x.2) m

theorem AbstractBook.lookup_erase (m : AbstractBook) (tree k : TreeKind) (key key' : Key) :
    ((m.erase tree key) k).lookup key' =
      if (tree, key) = (k, key') then none else (m k).lookup key' := by
  by_cases hk : k = tree
  · subst hk
    by_cases hkey : key' = key
    · subst hkey
      simp [AbstractBook.erase]
    · simp [AbstractBook.erase, Ne.symm hkey, Finmap.lookup_erase_ne hkey]
  · simp [AbstractBook.erase, hk, Ne.symm hk]

theorem AbstractBook.lookup_eraseAll (m : AbstractBook) (keys : List (TreeKind × Key))
    (tree : TreeKind) (key : Key) : ((m.eraseAll keys) tree).lookup key =
      if (tree, key) ∈ keys then none else (m tree).lookup key := by
  induction keys generalizing m with
  | nil => simp [eraseAll]
  | cons x keys ih =>
    change (((m.erase x.1 x.2).eraseAll keys) tree).lookup key = _
    rw [ih, lookup_erase]
    by_cases hx : (tree, key) = x
    · subst hx
      simp
    · have hx' : (x.1, x.2) ≠ (tree, key) := fun h => hx h.symm
      simp [hx, hx']

namespace V2

open Foundation CritBit List PagedBookV3

namespace Arena

variable {a a' : Arena} {tree k : TreeKind} {i j now max owner : ℕ} {leaf : LeafNode} {key : Key}

def maps (a : Arena) : AbstractBook := fun tree =>
  ((a.resting tree).map fun x => (⟨x.2.key, x.2⟩ : Sigma fun _ : Key => LeafNode)).toFinmap

namespace Valid

theorem lookup_maps (ha : a.Valid) : (a.maps tree).lookup key = some leaf ↔
    leaf.key = key ∧ ∃ i, a.restingAt tree i = some leaf := by
  have hk : ((a.resting tree).map fun x =>
      (⟨x.2.key, x.2⟩ : Sigma fun _ : Key => LeafNode)).NodupKeys := by
    rw [nodupKeys_iff_pairwise, pairwise_map]
    refine (a.resting_sorted tree).imp_of_mem fun hx hy hlt heq => ?_
    have := ha.handle_unique (ha.mem_resting.1 hx) (ha.mem_resting.1 hy) heq
    omega
  rw [maps, Finmap.dlookup_list_toFinmap, ← Option.mem_def, mem_dlookup_iff hk, mem_map]
  constructor
  · rintro ⟨x, hx, heq⟩
    obtain ⟨rfl, hl⟩ := Sigma.mk.inj heq
    obtain rfl := eq_of_heq hl
    exact ⟨rfl, x.1, ha.mem_resting.1 hx⟩
  · rintro ⟨rfl, i, hi⟩
    exact ⟨(i, leaf), ha.mem_resting.2 hi, rfl⟩

theorem mem_maps (ha : a.Valid) :
    key ∈ a.maps tree ↔ ∃ i leaf, a.restingAt tree i = some leaf ∧ leaf.key = key := by
  rw [Finmap.mem_iff]
  constructor
  · rintro ⟨leaf, h⟩
    obtain ⟨hk, i, hi⟩ := ha.lookup_maps.1 h
    exact ⟨i, leaf, hi, hk⟩
  · rintro ⟨i, leaf, hi, hk⟩
    exact ⟨leaf, ha.lookup_maps.2 ⟨hk, i, hi⟩⟩

theorem maps_eq (ha : a.Valid) {m : AbstractBook} (h : ∀ tree key leaf,
    (m tree).lookup key = some leaf ↔ leaf.key = key ∧ ∃ i, a.restingAt tree i = some leaf) :
    a.maps = m := by
  funext tree
  refine Finmap.ext_lookup fun key => Option.ext fun leaf => ?_
  rw [ha.lookup_maps, h]

end Valid

theorem maps_eq_of_resting (ha : a.Valid) (ha' : a'.Valid)
    (h : ∀ k j, a'.restingAt k j = a.restingAt k j) : a'.maps = a.maps :=
  ha'.maps_eq fun tree key leaf => by simp only [ha.lookup_maps, h]

theorem Changed.maps_insert (h : Changed tree i (some leaf) a a') (ha : a.Valid) (ha' : a'.Valid)
    (hno : a.restingAt tree i = none)
    (hn : ∀ j leaf', a.restingAt tree j = some leaf' → leaf'.key ≠ leaf.key) :
    a'.maps = a.maps.insert tree leaf := by
  refine ha'.maps_eq fun k key leaf' => ?_
  by_cases hk : k = tree
  · subst hk
    rw [AbstractBook.insert, Function.update_self]
    by_cases hkey : key = leaf.key
    · subst hkey
      rw [Finmap.lookup_insert, Option.some.injEq]
      constructor
      · rintro rfl
        exact ⟨rfl, i, h.self⟩
      · rintro ⟨hk', j, hj⟩
        rw [h.restingAt] at hj
        split_ifs at hj
        · exact Option.some.inj hj
        · exact absurd hk' (hn j leaf' hj)
    · rw [Finmap.lookup_insert_of_ne _ hkey, ha.lookup_maps]
      refine and_congr_right fun hk' => exists_congr fun j => ?_
      rw [h.restingAt]
      split_ifs with hj
      · obtain rfl : j = i := by simpa using hj
        simp only [hno, reduceCtorEq, Option.some.injEq, false_iff]
        rintro rfl
        exact hkey hk'.symm
      · rfl
  · rw [AbstractBook.insert, Function.update_of_ne hk, ha.lookup_maps]
    refine and_congr_right fun _ => exists_congr fun j => ?_
    rw [h.other k j (by simp [hk])]

theorem Cancelled.maps_eraseAll {ys : List (TreeKind × ℕ × LeafNode)} (h : Cancelled ys a a')
    (ha : a.Valid) (hys : ∀ y ∈ ys, a.restingAt y.1 y.2.1 = some y.2.2) :
    a'.maps = a.maps.eraseAll (ys.map fun y => (y.1, y.2.2.key)) := by
  refine h.valid.maps_eq fun k key leaf => ?_
  rw [AbstractBook.lookup_eraseAll]
  have hw {j : ℕ} (hj : a'.restingAt k j = some leaf) :
      a.restingAt k j = some leaf ∧ ∀ y ∈ ys, (k, j) ≠ (y.1, y.2.1) := by
    have hne : ∀ y ∈ ys, (k, j) ≠ (y.1, y.2.1) := by
      intro y hy heq
      obtain ⟨rfl, rfl⟩ := Prod.mk.inj heq
      simp [h.gone y hy] at hj
    exact ⟨h.kept k j hne ▸ hj, hne⟩
  split_ifs with hmem
  · simp only [false_iff, not_and, not_exists]
    intro hk j hj
    obtain ⟨hj', hne⟩ := hw hj
    obtain ⟨y, hy, heq⟩ := mem_map.1 hmem
    obtain ⟨rfl, hkey⟩ := Prod.mk.inj heq
    have := ha.handle_unique hj' (hys y hy) (hk.trans hkey.symm)
    exact hne y hy (by rw [this])
  · rw [ha.lookup_maps]
    refine and_congr_right fun hk => exists_congr fun j => ⟨fun hj => ?_, fun hj => (hw hj).1⟩
    rw [h.kept k j fun y hy heq => hmem ?_]
    · exact hj
    · obtain ⟨rfl, rfl⟩ := Prod.mk.inj heq
      have : leaf = y.2.2 := Option.some.inj (hj.symm.trans (hys y hy))
      exact mem_map.2 ⟨y, hy, by rw [← hk, this]⟩

theorem Cancelled.maps_ne {ys : List (TreeKind × ℕ × LeafNode)} (h : Cancelled ys a a')
    (ha : a.Valid) (hys : ∀ y ∈ ys, a.restingAt y.1 y.2.1 = some y.2.2) (hne : ys ≠ []) :
    a'.maps ≠ a.maps := by
  obtain ⟨y, hy⟩ := exists_mem_of_ne_nil _ hne
  intro heq
  have hl := congrArg (fun m => (m y.1).lookup y.2.2.key) heq
  rw [h.maps_eraseAll ha hys, AbstractBook.lookup_eraseAll, if_pos (mem_map_of_mem hy),
    ha.lookup_maps.2 ⟨rfl, _, hys y hy⟩] at hl
  cases hl

theorem Valid.restingAt_owned (ha : a.Valid) {y : TreeKind × ℕ × LeafNode}
    (hy : y ∈ a.owned owner) : a.restingAt y.1 y.2.1 = some y.2.2 := by
  simp only [owned, mem_flatMap] at hy
  obtain ⟨tree, -, hy⟩ := hy
  obtain ⟨x, hx, rfl⟩ := mem_map.1 hy
  exact ha.mem_resting.1 (mem_filter.1 hx).1

/-- A sweep removes orders that are due, until none is left or it has removed enough. -/
theorem Valid.sweepExpired (ha : a.Valid) (tree : TreeKind) (now max : ℕ) :
    ∃ a' ys, Arena.sweepExpired tree now max a = .ok ys.length a' ∧ ys.length ≤ max ∧
      Cancelled ys a a' ∧ (ys.map fun y => (y.1, y.2.2.key)).Nodup ∧
      (∀ y ∈ ys, y.1 = tree ∧ a.restingAt tree y.2.1 = some y.2.2 ∧ expiryOf y.2.2 ≤ now) ∧
      (ys.length < max → ∀ i leaf, a'.restingAt tree i = some leaf → now < expiryOf leaf) := by
  induction max generalizing a with
  | zero => exact ⟨a, [], rfl, le_rfl, .nil ha, by simp, by simp, by simp⟩
  | succ max ih =>
    rcases ha.firstExpired_eq tree now with ⟨hn, hl⟩ | ⟨i, leaf, hs, hre, hd⟩
    · have hread : reading (·.firstExpired tree now) a = .ok none a := run_reading_of_ok hn
      refine ⟨a, [], ?_, Nat.zero_le _, .nil ha, by simp, by simp, fun _ => hl⟩
      rw [Arena.sweepExpired, run_bind_of_ok hread]
      rfl
    · have hread : reading (·.firstExpired tree now) a = .ok (some i) a := run_reading_of_ok hs
      have hle : reading (·.leaf i) a = .ok leaf a := run_reading_of_ok (ha.leaf_eq hre)
      obtain ⟨a₁, hrun, hv, hch, hbu, -⟩ := ha.remove hre
      have ho : Cancelled [(tree, i, leaf)] a a₁ := hch.cancelled hv hbu
      obtain ⟨a', ys, hsw, hlen, hc, hnd, hys, hl⟩ := ih hv
      have hb {y : TreeKind × ℕ × LeafNode} (hy : y ∈ ys) :
          a.restingAt tree y.2.1 = some y.2.2 ∧ y.2.1 ≠ i := by
        have hr := (hys y hy).2.1
        rw [hch.restingAt] at hr
        split_ifs at hr with heq
        exact ⟨hr, by simpa using heq⟩
      refine ⟨a', (tree, i, leaf) :: ys, ?_, by simpa using hlen, ho.append hc, ?_, ?_, ?_⟩
      · rw [Arena.sweepExpired, run_bind_of_ok hread]
        dsimp only
        rw [run_bind_of_ok hle, run_bind_of_ok hrun, run_bind_of_ok hsw]
        rfl
      · rw [map_cons, nodup_cons]
        refine ⟨fun hmem => ?_, hnd⟩
        obtain ⟨y, hy, heq⟩ := mem_map.1 hmem
        have := ha.handle_unique (hb hy).1 hre (Prod.mk.inj heq).2
        exact (hb hy).2 this
      · refine forall_mem_cons.2 ⟨⟨rfl, hre, hd⟩, fun y hy => ?_⟩
        exact ⟨(hys y hy).1, (hb hy).1, (hys y hy).2.2⟩
      · intro hlt
        exact hl (by simpa using hlt)

end Arena

/-! ## Operations -/

inductive ArenaOp where
  | insert (tree : TreeKind) (leaf : LeafNode)
  | remove (tree : TreeKind) (key : Key)
  | sweepExpired (tree : TreeKind) (now max : ℕ)
  | cancelOwnerSummary (owner max : ℕ)

namespace ArenaOp

open Arena (required available)

variable {a : Arena}

/-- The arena is still valid and its maps are the ones given. -/
def Becomes (a' : Arena) (m : AbstractBook) : Prop := a'.Valid ∧ a'.maps = m

/-- An operation leaves a valid arena and acts on its maps as its name says; if it fails, they stay
as they were. -/
def Refines (a : Arena) : ArenaOp → Prop
  | insert tree leaf => match Arena.insert tree leaf a with
    | .ok handle a' => leaf.key ∉ a.maps tree ∧ a'.leaf handle = .ok leaf ∧
        Becomes a' (a.maps.insert tree leaf)
    | .error e a' => (e = .duplicateKey ∧ leaf.key ∈ a.maps tree ∨
        e = .full ∧ leaf.key ∉ a.maps tree ∧ a.available < a.required tree) ∧ Becomes a' a.maps
  | remove tree key => match Arena.remove tree key a with
    | .ok leaf a' => (a.maps tree).lookup key = some leaf ∧ Becomes a' (a.maps.erase tree key)
    | .error e a' => e = .missingKey ∧ key ∉ a.maps tree ∧ Becomes a' a.maps
  | sweepExpired tree now max => match Arena.sweepExpired tree now max a with
    | .ok removed a' => ∃ keys : List Key, keys.Nodup ∧ keys.length = removed ∧ removed ≤ max ∧
        (∀ key ∈ keys, ∃ leaf, (a.maps tree).lookup key = some leaf ∧ expiryOf leaf ≤ now) ∧
        Becomes a' (a.maps.eraseAll (keys.map (tree, ·))) ∧
        (removed < max → ∀ key leaf, (a'.maps tree).lookup key = some leaf → now < expiryOf leaf)
    | .error _ a' => Becomes a' a.maps
  | cancelOwnerSummary owner max => match Arena.cancelOwnerSummary owner max a with
    | .ok summary a' =>
        summary = .total (((a.owned owner).take max).map fun y => y.2.2) ∧
        Becomes a' (a.maps.eraseAll (((a.owned owner).take max).map fun y => (y.1, y.2.2.key)))
    | .error _ a' => Becomes a' a.maps

/-- An insertion is safe unless it is refused with the last slot of the arena as the only free one;
a cancellation is safe if the sums over what it removes are machine words. -/
def Safe (a : Arena) : ArenaOp → Prop
  | insert tree leaf => ¬(a.LastFreed tree ∧ leaf.key ∉ a.maps tree)
  | remove _ _ => True
  | sweepExpired _ _ _ => True
  | cancelOwnerSummary owner max =>
      (CancelSummary.total (((a.owned owner).take max).map fun y => y.2.2)).Fits

theorem refines_insert (ha : a.Valid) (tree : TreeKind) (leaf : LeafNode) :
    (insert tree leaf).Refines a ↔ (insert tree leaf).Safe a := by
  by_cases hmem : leaf.key ∈ a.maps tree
  · obtain ⟨i, leaf', hi, hk⟩ := ha.mem_maps.1 hmem
    simp only [Refines, ha.insert_duplicate hi hk]
    exact iff_of_true ⟨.inl ⟨trivial, hmem⟩, ha, rfl⟩ fun h => h.2 hmem
  · have hn : ∀ i leaf', a.restingAt tree i = some leaf' → leaf'.key ≠ leaf.key :=
      fun i leaf' hi hk => hmem (ha.mem_maps.2 ⟨i, leaf', hi, hk⟩)
    rcases Nat.lt_or_ge a.available (a.required tree) with hr | hr
    · obtain ⟨a', hrun, hg, hb⟩ := ha.insert_full hn hr
      simp only [Refines, hrun, Safe, hmem, not_false_iff, and_true]
      by_cases hl : a.LastFreed tree
      · exact iff_of_false (fun h => hb hl h.2.1) (fun h => h hl)
      · obtain ⟨hv, hs⟩ := hg hl
        exact iff_of_true ⟨.inr ⟨trivial, trivial, hr⟩, hv, Arena.maps_eq_of_resting ha hv hs⟩ hl
    · obtain ⟨i, a', hrun, hv, hc, hno, -⟩ := ha.insert_new hn hr
      simp only [Refines, hrun]
      refine iff_of_true ⟨hmem, hv.leaf_eq hc.self, hv, hc.maps_insert ha hv hno hn⟩ fun h => ?_
      obtain ⟨hro, hbu, hf, -⟩ := h.1
      simp only [required, hro, if_false, available] at hr
      omega

theorem refines_remove (ha : a.Valid) (tree : TreeKind) (key : Key) :
    (remove tree key).Refines a := by
  by_cases hmem : key ∈ a.maps tree
  · obtain ⟨i, leaf, hi, rfl⟩ := ha.mem_maps.1 hmem
    obtain ⟨a', hr, hv, hch, hb, -⟩ := ha.remove hi
    have hc : Arena.Cancelled [(tree, i, leaf)] a a' := hch.cancelled hv hb
    simp only [Refines, hr]
    exact ⟨ha.lookup_maps.2 ⟨rfl, i, hi⟩, hv, hc.maps_eraseAll ha (by simpa using hi)⟩
  · have hm : Arena.remove tree key a = .error .missingKey a :=
      ha.remove_missing fun i leaf hi hk => hmem (ha.mem_maps.2 ⟨i, leaf, hi, hk⟩)
    simp only [Refines, hm]
    exact ⟨trivial, hmem, ha, rfl⟩

theorem refines_sweepExpired (ha : a.Valid) (tree : TreeKind) (now max : ℕ) :
    (sweepExpired tree now max).Refines a := by
  obtain ⟨a', ys, hrun, hlen, hc, hnd, hys, hl⟩ := ha.sweepExpired tree now max
  have hk : ys.map (fun y => (y.1, y.2.2.key)) = (ys.map fun y => y.2.2.key).map (tree, ·) := by
    rw [map_map]
    exact map_congr_left fun y hy => by rw [(hys y hy).1]; rfl
  have hr : ∀ y ∈ ys, a.restingAt y.1 y.2.1 = some y.2.2 := fun y hy => by
    rw [(hys y hy).1]
    exact (hys y hy).2.1
  simp only [Refines, hrun]
  refine ⟨ys.map fun y => y.2.2.key, ?_, by simp, hlen, ?_, ⟨hc.valid, ?_⟩, ?_⟩
  · rw [hk] at hnd
    exact hnd.of_map _
  · intro key hkey
    obtain ⟨y, hy, rfl⟩ := mem_map.1 hkey
    obtain ⟨-, hi, hd⟩ := hys y hy
    exact ⟨y.2.2, ha.lookup_maps.2 ⟨rfl, _, hi⟩, hd⟩
  · rw [← hk]
    exact hc.maps_eraseAll ha hr
  · intro hlt key leaf hlo
    obtain ⟨-, i, hi⟩ := hc.valid.lookup_maps.1 hlo
    exact hl hlt i leaf hi

theorem refines_cancelOwnerSummary (ha : a.Valid) (owner max : ℕ) :
    (cancelOwnerSummary owner max).Refines a ↔ (cancelOwnerSummary owner max).Safe a := by
  have hs := ha.cancelOwnerSummary owner max
  have hre : ∀ y ∈ (a.owned owner).take max, a.restingAt y.1 y.2.1 = some y.2.2 := fun y hy =>
    ha.restingAt_owned (mem_of_mem_take hy)
  have hfo := CancelSummary.foldlM_add .empty (((a.owned owner).take max).map fun y => y.2.2)
  have hp (t : CancelSummary) : CancelSummary.empty.plus t = t := by
    simp [CancelSummary.plus, CancelSummary.empty]
  rw [hp] at hfo
  set ls := ((a.owned owner).take max).map fun y => y.2.2 with hls
  by_cases hf : (CancelSummary.total ls).Fits
  · rw [if_pos (.inl hf)] at hfo
    obtain ⟨a', hr, hc⟩ := hs.ok _ hfo
    simp only [Refines, hr]
    exact iff_of_true ⟨rfl, hc.valid, hc.maps_eraseAll ha hre⟩ hf
  · have hne : ls ≠ [] := by
      rintro hn
      rw [hn] at hf
      exact hf (by decide)
    rw [if_neg (by simp [hf, hne])] at hfo
    obtain ⟨a', zs, hr, hzs, hsub, hc⟩ := hs.error _ hfo
    simp only [Refines, hr]
    refine iff_of_false (fun h => ?_) hf
    exact hc.maps_ne ha (fun z hz => hre z (hsub z hz)) hzs h.2

end ArenaOp

namespace Arena

variable {a : Arena}

/-- The best order of a tree is the one with the least key. -/
def BestIsLeast (a : Arena) (tree : TreeKind) : Prop :=
  match a.best tree with
  | .ok none => a.maps tree = ∅
  | .ok (some handle) => ∃ leaf, a.leaf handle = .ok leaf ∧
      (a.maps tree).lookup leaf.key = some leaf ∧ ∀ key ∈ a.maps tree, leaf.key ≤ key
  | .error _ => False

/-- The walk of the sweep finds an order that is due if the tree has one. -/
def FindsExpired (a : Arena) (tree : TreeKind) (now : ℕ) : Prop :=
  match a.firstExpired tree now with
  | .ok none => ∀ key leaf, (a.maps tree).lookup key = some leaf → now < expiryOf leaf
  | .ok (some handle) => ∃ leaf, a.leaf handle = .ok leaf ∧
      (a.maps tree).lookup leaf.key = some leaf ∧ expiryOf leaf ≤ now
  | .error _ => False

theorem Valid.bestIsLeast (ha : a.Valid) (tree : TreeKind) : a.BestIsLeast tree := by
  unfold BestIsLeast
  rcases ha.best_eq tree with ⟨hb, hn⟩ | ⟨i, leaf, hb, hi, hle⟩
  · rw [hb]
    refine Finmap.ext_lookup fun key => ?_
    rw [Finmap.lookup_empty, Option.eq_none_iff_forall_ne_some]
    intro leaf hl
    obtain ⟨-, i, hi⟩ := ha.lookup_maps.1 hl
    simp [hn] at hi
  · rw [hb]
    refine ⟨leaf, ha.leaf_eq hi, ha.lookup_maps.2 ⟨rfl, i, hi⟩, fun key hk => ?_⟩
    obtain ⟨j, leaf', hj, rfl⟩ := ha.mem_maps.1 hk
    exact hle j leaf' hj

theorem Valid.findsExpired (ha : a.Valid) (tree : TreeKind) (now : ℕ) :
    a.FindsExpired tree now := by
  unfold FindsExpired
  rcases ha.firstExpired_eq tree now with ⟨hn, hl⟩ | ⟨i, leaf, hs, hi, hd⟩
  · rw [hn]
    intro key leaf hle
    obtain ⟨-, i, hi⟩ := ha.lookup_maps.1 hle
    exact hl i leaf hi
  · rw [hs]
    exact ⟨leaf, ha.leaf_eq hi, ha.lookup_maps.2 ⟨rfl, i, hi⟩, hd⟩

/-- A valid arena refines two finite maps, operation by operation, exactly when the operation is
safe; its searches always answer for the maps. -/
theorem arena_refinement_iff (ha : a.validate = .ok ()) :
    (∀ op : ArenaOp, op.Refines a ↔ op.Safe a) ∧ (∀ tree, a.BestIsLeast tree) ∧
      ∀ tree now, a.FindsExpired tree now := by
  refine ⟨fun op => ?_, Valid.bestIsLeast ha, Valid.findsExpired ha⟩
  cases op with
  | insert tree leaf => exact ArenaOp.refines_insert ha tree leaf
  | remove tree key => exact iff_of_true (ArenaOp.refines_remove ha tree key) trivial
  | sweepExpired tree now max =>
    exact iff_of_true (ArenaOp.refines_sweepExpired ha tree now max) trivial
  | cancelOwnerSummary owner max => exact ArenaOp.refines_cancelOwnerSummary ha owner max

/-- Two orders under an inner node, the second in the slot of one that was removed. -/
def recycledArena : Arena := finalState ((do
  let _ ← Arena.insert .fixed (sampleLeaf 5 1)
  let _ ← Arena.insert .fixed (sampleLeaf 6 1)
  let _ ← Arena.remove .fixed 5
  let _ ← Arena.insert .fixed (sampleLeaf 9 2) : ArenaM Unit) Arena.new)

theorem arena_refinement_of_recycledArena : recycledArena.validate = .ok () ∧
    (ArenaOp.insert .fixed (sampleLeaf 7 1)).Refines recycledArena ∧
    (ArenaOp.remove .fixed 6).Refines recycledArena ∧
    (ArenaOp.cancelOwnerSummary 1 8).Refines recycledArena ∧
    recycledArena.BestIsLeast .fixed ∧ recycledArena.FindsExpired .fixed 200 := by
  have ha : recycledArena.validate = .ok () := by decide +kernel
  obtain ⟨hi, hb, hf⟩ := arena_refinement_iff ha
  refine ⟨ha, (hi _).2 fun h => ?_, (hi _).2 trivial, (hi _).2 ?_, hb _, hf _ _⟩
  · exact absurd h.1.2.1 (by decide +kernel)
  · unfold ArenaOp.Safe
    decide +kernel

/-! ## The last slot -/

/-- Orders with the keys below a bound, in ascending order. -/
def insertKeys (n : ℕ) : ArenaM Unit :=
  (range n).forM fun k => do
    let _ ← Arena.insert .fixed (numberedLeaf k)

/-- A fixed tree of the keys below a bound that takes up all slots up to the cursor. -/
structure Filled (n : ℕ) (a : Arena) : Prop where
  valid : a.Valid
  keys : ∀ i leaf, a.restingAt .fixed i = some leaf → leaf.key.val < n
  nonempty : 0 < n → ∃ i leaf, a.restingAt .fixed i = some leaf
  pegged : ∀ i, a.restingAt .oraclePegged i = none
  freeLen : a.freeLen = 0
  available : a.available + (2 * n - 1) = arenaCapacity

theorem key_numberedLeaf {n : ℕ} (hn : n ≤ 512) : (numberedLeaf n).key.val = n := by
  simp only [numberedLeaf, sampleLeaf, Fin.val_ofNat]
  omega

theorem filled_new : Filled 0 Arena.new := by
  have hv : Arena.new.Valid := by
    unfold Valid
    decide +kernel
  have hn (tree : TreeKind) : ∀ i, Arena.new.restingAt tree i = none := hv.root_eq_none_iff.1 rfl
  exact ⟨hv, by simp [hn], by simp, hn _, rfl, rfl⟩

theorem Filled.insert {n : ℕ} (h : Filled n a) (hn : n < 512) :
    ∃ i a', Arena.insert .fixed (numberedLeaf n) a = .ok i a' ∧ Filled (n + 1) a' := by
  have hk := key_numberedLeaf hn.le
  have hnew : ∀ i leaf', a.restingAt .fixed i = some leaf' → leaf'.key ≠ (numberedLeaf n).key := by
    intro i leaf' hi heq
    have := h.keys i leaf' hi
    rw [heq, hk] at this
    omega
  have hro : a.roots .fixed = NONE ↔ n = 0 := by
    rw [h.valid.root_eq_none_iff]
    constructor
    · intro hno
      by_contra hpos
      obtain ⟨i, leaf, hi⟩ := h.nonempty (by omega)
      simp [hno] at hi
    · rintro rfl i
      rw [Option.eq_none_iff_forall_ne_some]
      exact fun leaf hi => absurd (h.keys i leaf hi) (by omega)
  have hcap : arenaCapacity = 1024 := rfl
  have ha := h.available
  have hr : a.required .fixed = if n = 0 then 1 else 2 := by
    simp only [required, hro]
  obtain ⟨i, a', hrun, hv, hc, -, hs, hlen, -⟩ := h.valid.insert_new hnew (by
    rw [hr]
    split_ifs <;> omega)
  refine ⟨i, a', hrun, hv, fun j leaf hj => ?_, fun _ => ⟨i, _, hc.self⟩, fun j => ?_,
    Nat.eq_zero_of_le_zero (hlen.trans_eq h.freeLen), ?_⟩
  · rw [hc.restingAt] at hj
    split_ifs at hj
    · obtain rfl := Option.some.inj hj
      omega
    · exact (h.keys j leaf hj).trans (Nat.lt_succ_self n)
  · rw [hc.other _ _ (by simp), h.pegged]
  · rw [hr] at hs
    split_ifs at hs <;> omega

theorem run_insertKeys {n : ℕ} (hn : n ≤ 512) :
    ∃ a, insertKeys n Arena.new = .ok () a ∧ Filled n a := by
  induction n with
  | zero => exact ⟨_, rfl, filled_new⟩
  | succ n ih =>
    obtain ⟨a, hr, hf⟩ := ih (by omega)
    obtain ⟨i, a', hi, hf'⟩ := hf.insert (by omega)
    refine ⟨a', ?_, hf'⟩
    rw [insertKeys, range_succ]
    exact run_forM_append.2 ⟨a, hr, run_forM_cons.2 ⟨a', run_bind_of_ok hi, rfl⟩⟩

/-- After 512 fixed orders and a pegged one that was removed again, the last slot is the only free
one. The next fixed order is refused, and the arena it leaves does not pass validation. -/
theorem refused_insert_invalidates : ∃ a₁ a₂ a₃ a₄ : Arena,
    insertKeys 512 Arena.new = .ok () a₁ ∧
    Arena.insert .oraclePegged (sampleLeaf 5 1) a₁ = .ok 1023 a₂ ∧
    Arena.remove .oraclePegged (sampleLeaf 5 1).key a₂ = .ok (sampleLeaf 5 1) a₃ ∧
    a₃.validate = .ok () ∧
    Arena.insert .fixed (numberedLeaf 512) a₃ = .error .full a₄ ∧ a₄.validate ≠ .ok () := by
  obtain ⟨a₁, hrun, h⟩ := run_insertKeys (n := 512) le_rfl
  have hc : arenaCapacity = 1024 := rfl
  have ha := h.available
  have hfr := h.freeLen
  have hbu : a₁.bumpIndex = 1023 := by
    have := h.valid.bump_le
    simp only [available] at ha
    omega
  have hr : a₁.roots .oraclePegged = NONE := h.valid.root_eq_none_iff.2 h.pegged
  have hp : ∀ i leaf', a₁.restingAt .oraclePegged i = some leaf' →
      leaf'.key ≠ (sampleLeaf 5 1).key := by simp [h.pegged]
  obtain ⟨i, a₂, hi, hv₂, hc₂, -, hs, hlen, ht⟩ :=
    h.valid.insert_new hp (by rw [required, if_pos hr]; omega)
  obtain rfl : i = 1023 := (ht hfr).trans hbu
  rw [required, if_pos hr] at hs
  have hb₂ : a₂.bumpIndex = 1024 := by
    have := hv₂.bump_le
    simp only [available] at hs ha
    omega
  obtain ⟨a₃, hre, hv₃, hc₃, hb₃, hh, hl₃, -⟩ := hv₂.remove hc₂.self
  have hn₃ : a₃.roots .oraclePegged = NONE := by
    refine hv₃.root_eq_none_iff.2 fun j => ?_
    rw [hc₃.restingAt]
    split_ifs with hj
    · rfl
    · rw [hc₂.restingAt, if_neg hj, h.pegged]
  rw [if_pos hn₃] at hl₃
  have hf (j : ℕ) : a₃.restingAt .fixed j = a₁.restingAt .fixed j := by
    rw [hc₃.other _ _ (by simp), hc₂.other _ _ (by simp)]
  have hl : a₃.LastFreed .fixed := by
    refine ⟨fun hno => ?_, by omega, by omega, by omega⟩
    obtain ⟨j, leaf, hj⟩ := h.nonempty (by decide)
    rw [← hf, hv₃.root_eq_none_iff.1 hno j] at hj
    cases hj
  have hn : ∀ j leaf', a₃.restingAt .fixed j = some leaf' → leaf'.key ≠ (numberedLeaf 512).key := by
    intro j leaf' hj heq
    rw [hf] at hj
    have := h.keys j leaf' hj
    rw [heq, key_numberedLeaf le_rfl] at this
    omega
  obtain ⟨a₄, hfu, -, hb⟩ := hv₃.insert_full hn (by
    rw [required, if_neg hl.1]
    simp only [available]
    omega)
  exact ⟨a₁, a₂, a₃, a₄, hrun, hi, hre, hv₃, hfu, hb hl⟩

end Arena

end V2

end Equinox
