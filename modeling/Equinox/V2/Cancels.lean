import Equinox.V2.Contents

/-! # Cancelling an owner's orders

The scan over the slots of an arena removes the first orders of an owner, tree by
tree and by handle. What it took is added up as it goes along; when a sum no
longer fits, the orders up to there are gone although the call fails.
-/

namespace Equinox.V2

open Foundation CritBit List CancelSummary Except TreeKind

namespace CancelSummary

variable {s : CancelSummary} {leaf : LeafNode} {ls : List LeafNode}

def total (ls : List LeafNode) : CancelSummary where
  count := ls.length
  bidQuantity := ((ls.filter fun leaf => leaf.side = .bid).map (·.quantity)).sum
  askQuantity := ((ls.filter fun leaf => leaf.side = .ask).map (·.quantity)).sum
  reservedNotional := (ls.map fun leaf => leaf.quantity * leaf.priceOrOffset.val.toNat).sum

def Fits (s : CancelSummary) : Prop :=
  s.bidQuantity < 2 ^ 64 ∧ s.askQuantity < 2 ^ 64 ∧ s.reservedNotional < 2 ^ 128

instance : Decidable s.Fits := inferInstanceAs (Decidable (_ ∧ _))

def plus (s t : CancelSummary) : CancelSummary where
  count := s.count + t.count
  bidQuantity := s.bidQuantity + t.bidQuantity
  askQuantity := s.askQuantity + t.askQuantity
  reservedNotional := s.reservedNotional + t.reservedNotional

theorem add_eq : s.add leaf = if (s.plus (total [leaf])).Fits then .ok (s.plus (total [leaf]))
    else .error .integrity := by
  have hadd : s.add leaf = (do
      require ((s.plus (total [leaf])).bidQuantity < 2 ^ 64 ∧
        (s.plus (total [leaf])).askQuantity < 2 ^ 64) .integrity
      require ((s.plus (total [leaf])).reservedNotional < 2 ^ 128) .integrity
      pure (s.plus (total [leaf]))) := by
    unfold add
    cases hs : leaf.side <;> simp [plus, total, hs]
  rw [hadd]
  by_cases hq : (s.plus (total [leaf])).bidQuantity < 2 ^ 64 ∧
      (s.plus (total [leaf])).askQuantity < 2 ^ 64
  · by_cases hn : (s.plus (total [leaf])).reservedNotional < 2 ^ 128
    · rw [if_pos ⟨hq.1, hq.2, hn⟩]
      simp only [require, hq, hn, if_true, and_self, ok_bind]
      rfl
    · rw [if_neg fun h => hn h.2.2]
      simp only [require, hq, hn, if_true, if_false, and_self, ok_bind]
      rfl
  · rw [if_neg fun h => hq ⟨h.1, h.2.1⟩]
    simp only [require, hq, if_false]
    rfl

theorem total_cons : total (leaf :: ls) = (total [leaf]).plus (total ls) := by
  cases hs : leaf.side <;> simp [total, plus, hs, Nat.add_comm 1]

theorem plus_assoc (s t u : CancelSummary) : (s.plus t).plus u = s.plus (t.plus u) := by
  simp [plus, Nat.add_assoc]

theorem Fits.of_plus {t : CancelSummary} (h : (s.plus t).Fits) : s.Fits := by
  simp only [Fits, plus] at h ⊢
  omega

theorem foldlM_add (s : CancelSummary) (ls : List LeafNode) :
    ls.foldlM add s = if (s.plus (total ls)).Fits ∨ ls = [] then .ok (s.plus (total ls))
      else .error .integrity := by
  induction ls generalizing s with
  | nil => simp [plus, total, pure, Except.pure]
  | cons leaf ls ih =>
    rw [foldlM_cons, add_eq]
    by_cases h : (s.plus (total [leaf])).Fits
    · rw [if_pos h, ok_bind, ih, plus_assoc, ← total_cons]
      by_cases hls : ls = []
      · subst hls
        simp [h]
      · simp [hls]
    · have hn : ¬(s.plus (total (leaf :: ls))).Fits := by
        rw [total_cons, ← plus_assoc]
        exact fun hf => h hf.of_plus
      rw [if_neg h, if_neg (by simp [hn])]
      rfl

end CancelSummary

namespace Arena

variable {a b b' : Arena} {tree : TreeKind} {owner max i : ℕ} {leaf : LeafNode} {key : Key}
  {s : CancelSummary}

def ownedIn (a : Arena) (owner : ℕ) (tree : TreeKind) : List (ℕ × LeafNode) :=
  (a.resting tree).filter fun x => x.2.owner = owner

def owned (a : Arena) (owner : ℕ) : List (TreeKind × ℕ × LeafNode) :=
  [fixed, oraclePegged].flatMap fun tree =>
    (a.ownedIn owner tree).map fun x => (tree, x)

def ownedAt (a : Arena) (owner : ℕ) (tree : TreeKind) (handle : ℕ) : Option (ℕ × LeafNode) :=
  ((a.restingAt tree handle).filter fun leaf => leaf.owner = owner).map (handle, ·)

theorem ownedAt_eq_some {x : ℕ × LeafNode} : a.ownedAt owner tree i = some x ↔
    x.1 = i ∧ a.restingAt tree i = some x.2 ∧ x.2.owner = owner := by
  simp only [ownedAt, Option.map_eq_some_iff, Option.filter_eq_some_iff, decide_eq_true_eq]
  constructor
  · rintro ⟨leaf, h, rfl⟩
    exact ⟨rfl, h⟩
  · rintro ⟨rfl, h⟩
    exact ⟨x.2, h, rfl⟩

theorem ownedIn_eq (a : Arena) (owner : ℕ) (tree : TreeKind) :
    a.ownedIn owner tree = (range a.bumpIndex).filterMap (a.ownedAt owner tree) := by
  rw [ownedIn, resting, filter_filterMap]
  congr 1
  funext i
  simp only [ownedAt]
  cases a.restingAt tree i with
  | none => rfl
  | some leaf => by_cases h : leaf.owner = owner <;> simp [Option.filter, h]

/-- Some orders were removed, and nothing else changed. -/
structure Cancelled (ys : List (TreeKind × ℕ × LeafNode)) (a a' : Arena) : Prop where
  valid : a'.Valid
  bumpIndex : a'.bumpIndex = a.bumpIndex
  gone : ∀ y ∈ ys, a'.restingAt y.1 y.2.1 = none
  kept : ∀ k j, (∀ y ∈ ys, (k, j) ≠ (y.1, y.2.1)) → a'.restingAt k j = a.restingAt k j

theorem Cancelled.nil (ha : a.Valid) : Cancelled [] a a := ⟨ha, rfl, by simp, fun _ _ _ => rfl⟩

theorem Cancelled.append {ys zs : List (TreeKind × ℕ × LeafNode)} (h : Cancelled ys a b)
    (h' : Cancelled zs b b') : Cancelled (ys ++ zs) a b' where
  valid := h'.valid
  bumpIndex := h'.bumpIndex.trans h.bumpIndex
  gone y hy := by
    rcases mem_append.1 hy with hy | hy
    · by_cases hz : ∀ z ∈ zs, (y.1, y.2.1) ≠ (z.1, z.2.1)
      · rw [h'.kept _ _ hz, h.gone y hy]
      · push Not at hz
        obtain ⟨z, hz, heq⟩ := hz
        obtain ⟨h1, h2⟩ := Prod.mk.inj heq
        rw [h1, h2]
        exact h'.gone z hz
    · exact h'.gone y hy
  kept k j hkj := by
    rw [h'.kept k j fun z hz => hkj z (mem_append_right _ hz),
      h.kept k j fun y hy => hkj y (mem_append_left _ hy)]

theorem Changed.cancelled (h : Changed tree i none a b) (hb : b.Valid)
    (hbu : b.bumpIndex = a.bumpIndex) : Cancelled [(tree, i, leaf)] a b where
  valid := hb
  bumpIndex := hbu
  gone y hy := by
    obtain rfl := mem_singleton.1 hy
    exact h.self
  kept k j hkj := h.other k j (hkj _ (mem_singleton_self _))

namespace Valid

theorem findsAt_eq (ha : a.Valid) :
    a.findsAt tree key i = .ok (decide (a.find tree key = .ok i)) := by
  rw [findsAt]
  cases h : a.find tree key with
  | ok j => simp [attempt, bind, Except.bind, pure, Except.pure]
  | error e =>
    have hm : e = .missingKey := by
      by_contra hne
      have hn : ∀ j leaf, a.restingAt tree j = some leaf → leaf.key ≠ key := by
        intro j leaf hj hk
        have := ha.find_eq_ok.2 ⟨leaf, hj, hk⟩
        simp [h] at this
      exact hne (error.inj (h.symm.trans (ha.find_eq_error hn)))
    subst hm
    simp [attempt, bind, Except.bind, pure, Except.pure]

theorem cancelSlot_skip (ha : a.Valid) (hi : i < a.bumpIndex)
    (h : s.count < max → a.ownedAt owner tree i = none) :
    cancelSlot owner max tree s i a = .ok s a := by
  unfold cancelSlot
  split_ifs with hmax
  · have hi := hi.trans_le ha.bump_le
    have hr : reading (·.tag i) a = .ok (a.nodes i) a := run_reading_of_ok (tag_of_lt hi)
    rw [run_bind_of_ok hr]
    cases hn : a.nodes i with
    | uninitialized | inner | free | lastFree => rfl
    | leaf leaf =>
      have hl : a.leaf i = .ok leaf := by rw [Arena.leaf, tag_of_lt hi, hn]; rfl
      dsimp only
      split_ifs with ho
      · have hr : reading (·.findsAt tree leaf.key i) a =
            .ok (decide (a.find tree leaf.key = .ok i)) a := run_reading_of_ok ha.findsAt_eq
        rw [run_bind_of_ok hr]
        have hf : a.find tree leaf.key ≠ .ok i := by
          intro hf
          have hs : a.ownedAt owner tree i = some (i, leaf) :=
            ownedAt_eq_some.2 ⟨rfl, by simp [restingAt, hl, hf], ho⟩
          simp [h hmax] at hs
        simp [hf, pure, EStateM.pure]
      · rfl
  · rfl

theorem cancelSlot_take (ha : a.Valid) (hmax : s.count < max)
    (h : a.ownedAt owner tree i = some (i, leaf)) :
    ∃ a', cancelSlot owner max tree s i a = (liftM (s.add leaf) : ArenaM CancelSummary) a' ∧
      Cancelled [(tree, i, leaf)] a a' := by
  obtain ⟨-, hr, ho⟩ := ownedAt_eq_some.1 h
  obtain ⟨a', hrun, hv, hc, hb, -⟩ := ha.remove hr
  refine ⟨a', ?_, hc.cancelled hv hb⟩
  have hi := (ha.lt_bump hr).trans_le ha.bump_le
  have hn : a.tag i = .ok (.leaf leaf) := slot_eq_cell.1 (leaf_eq_ok.1 (ha.leaf_eq hr))
  have hre : reading (·.tag i) a = .ok (.leaf leaf) a := run_reading_of_ok hn
  have hf : reading (·.findsAt tree leaf.key i) a = .ok true a := by
    rw [run_reading_eq_ok, ha.findsAt_eq, decide_eq_true (ha.find_eq_ok.2 ⟨leaf, hr, rfl⟩)]
    exact ⟨rfl, rfl⟩
  rw [cancelSlot, if_pos hmax, run_bind_of_ok hre]
  dsimp only
  rw [if_pos ho, run_bind_of_ok hf, if_pos rfl, run_bind_of_ok hrun]

end Valid

/-- What a scan took before it ended, and how it ended. -/
structure Scanned (ys : List (TreeKind × ℕ × LeafNode)) (s : CancelSummary) (a : Arena)
    (result : EStateM.Result BookError Arena CancelSummary) : Prop where
  ok : ∀ s', (ys.map (·.2.2)).foldlM add s = .ok s' →
    ∃ a', result = .ok s' a' ∧ Cancelled ys a a'
  error : ∀ e, (ys.map (·.2.2)).foldlM add s = .error e →
    ∃ a' zs, result = .error e a' ∧ zs ≠ [] ∧ (∀ z ∈ zs, z ∈ ys) ∧ Cancelled zs a a'

theorem Scanned.nil (ha : a.Valid) : Scanned [] s a (.ok s a) := by
  refine ⟨fun s' h => ?_, fun e h => ?_⟩
  · obtain rfl := pure_eq_ok.1 h
    exact ⟨a, rfl, .nil ha⟩
  · simp [pure, Except.pure] at h

/-- One scan after another. -/
theorem Scanned.bind {ys zs : List (TreeKind × ℕ × LeafNode)} {x : ArenaM CancelSummary}
    {f : CancelSummary → ArenaM CancelSummary} (h : Scanned ys s a (x a))
    (hf : ∀ s₁ a₁, (ys.map (·.2.2)).foldlM add s = .ok s₁ → Cancelled ys a a₁ →
      Scanned zs s₁ a₁ (f s₁ a₁)) : Scanned (ys ++ zs) s a ((x >>= f) a) := by
  have hs : ((ys ++ zs).map (·.2.2)).foldlM add s = (ys.map (·.2.2)).foldlM add s >>= fun s₁ =>
        (zs.map (·.2.2)).foldlM add s₁ := by
    rw [map_append, foldlM_append]
  cases hfo : (ys.map (·.2.2)).foldlM add s with
  | error e =>
    rw [hfo] at hs
    obtain ⟨a', ws, hr, hne, hsub, hc⟩ := h.error e hfo
    rw [run_bind_of_error hr]
    refine ⟨fun s' h' => ?_, fun e' h' => ?_⟩
    · cases hs.symm.trans h'
    · obtain rfl := error.inj (hs.symm.trans h')
      exact ⟨a', ws, rfl, hne, fun z hz => mem_append_left _ (hsub z hz), hc⟩
  | ok s₁ =>
    rw [hfo, ok_bind] at hs
    obtain ⟨a₁, hr, hc₁⟩ := h.ok s₁ hfo
    rw [run_bind_of_ok hr]
    have hre := hf s₁ a₁ hfo hc₁
    refine ⟨fun s' h' => ?_, fun e h' => ?_⟩
    · obtain ⟨a', hr', hc⟩ := hre.ok s' (hs.symm.trans h')
      exact ⟨a', hr', hc₁.append hc⟩
    · obtain ⟨a', ws, hr', hne, hsub, hc⟩ := hre.error e (hs.symm.trans h')
      refine ⟨a', ys ++ ws, hr', by simp [hne], fun z hz => ?_, hc₁.append hc⟩
      rcases mem_append.1 hz with hz | hz
      · exact mem_append_left _ hz
      · exact mem_append_right _ (hsub z hz)

theorem Valid.scan_slot (ha : a.Valid) (hmax : s.count < max)
    (h : a.ownedAt owner tree i = some (i, leaf)) :
    Scanned [(tree, i, leaf)] s a (cancelSlot owner max tree s i a) := by
  obtain ⟨a₁, hs, hc⟩ := ha.cancelSlot_take hmax h
  rw [hs]
  have hf : ([(tree, i, leaf)].map (·.2.2)).foldlM add s = s.add leaf := by
    simp
  refine ⟨fun s' h' => ?_, fun e h' => ?_⟩
  · exact ⟨a₁, run_reading_of_ok (hf.symm.trans h'), hc⟩
  · exact ⟨a₁, _, run_reading_of_error (hf.symm.trans h'), by simp, fun z hz => hz, hc⟩

theorem foldlM_count {ls : List LeafNode} {s' : CancelSummary}
    (h : ls.foldlM add s = .ok s') : s'.count = s.count + ls.length := by
  rw [foldlM_add] at h
  split_ifs at h
  obtain rfl := ok.inj h
  rfl

/-- The scan over some slots of a tree takes the owner's first orders there. -/
theorem Valid.scan_tree (ha : a.Valid) (hs : List ℕ) (hnd : hs.Nodup)
    (hlt : ∀ i ∈ hs, i < a.bumpIndex) :
    Scanned (((hs.filterMap (a.ownedAt owner tree)).take (max - s.count)).map fun x => (tree, x))
      s a (hs.foldlM (cancelSlot owner max tree) s a) := by
  induction hs generalizing a s with
  | nil =>
    rw [filterMap_nil, take_nil]
    exact Scanned.nil ha
  | cons i hs ih =>
    obtain ⟨hi, hnd'⟩ := nodup_cons.1 hnd
    obtain ⟨hl, hlt'⟩ := forall_mem_cons.1 hlt
    rw [foldlM_cons]
    by_cases hsk : s.count < max → a.ownedAt owner tree i = none
    · rw [run_bind_of_ok (ha.cancelSlot_skip hl hsk)]
      have ht : ((i :: hs).filterMap (a.ownedAt owner tree)).take (max - s.count) =
          (hs.filterMap (a.ownedAt owner tree)).take (max - s.count) := by
        by_cases hmax : s.count < max
        · rw [filterMap_cons_none (hsk hmax)]
        · simp [Nat.sub_eq_zero_of_le (not_lt.1 hmax)]
      rw [ht]
      exact ih ha hnd' hlt'
    · push Not at hsk
      obtain ⟨hmax, hso⟩ := hsk
      obtain ⟨⟨j, leaf⟩, ho⟩ := Option.ne_none_iff_exists'.1 hso
      obtain rfl : j = i := (ownedAt_eq_some.1 ho).1
      obtain ⟨n, hn⟩ : ∃ n, max - s.count = n + 1 := ⟨max - s.count - 1, by omega⟩
      rw [filterMap_cons_some ho, hn, take_succ_cons, map_cons]
      refine (ha.scan_slot hmax ho).bind fun s₁ a₁ hf hc => ?_
      have hco : s₁.count = s.count + 1 := foldlM_count hf
      -- the other slots are as they were
      have hsa : hs.filterMap (a.ownedAt owner tree) = hs.filterMap (a₁.ownedAt owner tree) := by
        refine filterMap_congr fun k hk => ?_
        have hkj : k ≠ j := fun h => hi (h ▸ hk)
        simp only [ownedAt]
        rw [hc.kept tree k (by simp [hkj])]
      rw [hsa, show n = max - s₁.count by omega]
      exact ih hc.valid hnd' (by simpa only [hc.bumpIndex] using hlt')

theorem Valid.scan_all (ha : a.Valid) :
    Scanned (((a.ownedIn owner tree).take (max - s.count)).map fun x => (tree, x)) s a
      ((range a.bumpIndex).foldlM (cancelSlot owner max tree) s a) := by
  rw [ownedIn_eq]
  exact ha.scan_tree _ nodup_range fun i hi => mem_range.1 hi

/-- The scan over both trees. -/
theorem Valid.cancelOwnerSummary (ha : a.Valid) (owner max : ℕ) :
    Scanned ((a.owned owner).take max) .empty a (Arena.cancelOwnerSummary owner max a) := by
  have hrun : Arena.cancelOwnerSummary owner max a = ((range a.bumpIndex).foldlM
      (cancelSlot owner max .fixed) .empty >>= fun s a =>
        (range a.bumpIndex).foldlM (cancelSlot owner max .oraclePegged) s a) a := by
    simp only [Arena.cancelOwnerSummary, foldlM_cons, foldlM_nil, bind_pure]
    rfl
  have ht : (a.owned owner).take max =
      ((a.ownedIn owner .fixed).take max).map (fun x => (fixed, x)) ++
      ((a.ownedIn owner .oraclePegged).take (max - (a.ownedIn owner .fixed).length)).map
        fun x => (oraclePegged, x) := by
    simp [owned, take_append, map_take]
  rw [hrun, ht]
  refine (ha.scan_all (s := .empty)).bind fun s₁ a₁ hf hc => ?_
  have hs : a₁.ownedIn owner .oraclePegged = a.ownedIn owner .oraclePegged := by
    rw [ownedIn_eq, ownedIn_eq, hc.bumpIndex]
    refine filterMap_congr fun k hk => ?_
    simp only [ownedAt]
    rw [hc.kept]
    intro y hy
    obtain ⟨x, -, rfl⟩ := mem_map.1 hy
    simp
  have hco := foldlM_count hf
  simp only [empty, length_map, length_take] at hco
  have hr : (a.ownedIn owner .oraclePegged).take (max - (a.ownedIn owner .fixed).length) =
      (a.ownedIn owner .oraclePegged).take (max - s₁.count) := by
    congr 1
    omega
  rw [hr, ← hs]
  exact hc.valid.scan_all

end Arena

end Equinox.V2
