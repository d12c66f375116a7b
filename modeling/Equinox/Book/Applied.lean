import Equinox.Book.Refinement
import Equinox.Foundation.Selection

/-! # Plans applied exactly

A plan is checked as a whole before the first write. Once it passes, no removal
disturbs the orders that later entries name by their handles, so every write
succeeds and the plan changes nothing but the orders it names.
-/

namespace Equinox

open Foundation CritBit List V3Fill

/-- Whether an order of a tree is the one with a given tree and key. -/
def named (tree : TreeKind) (key : Key) (k : TreeKind) (x : ℕ × LeafNode) : Bool :=
  k = tree ∧ x.2.key = key

def V3SelfTradeCancellation.names (cancel : V3SelfTradeCancellation) :
    TreeKind → ℕ × LeafNode → Bool :=
  named cancel.makerTree cancel.key

def V3Fill.names (fill : V3Fill) : TreeKind → ℕ × LeafNode → Bool :=
  named fill.makerTree fill.key

def V3Fill.remainder (fill : V3Fill) (x : ℕ × LeafNode) : Option (ℕ × LeafNode) :=
  if fill.makerRemaining = 0 then none
  else some (x.1, { x.2 with quantity := fill.makerRemaining })

def V3MatchPlan.outcome (plan : V3MatchPlan) (tree : TreeKind) (x : ℕ × LeafNode) :
    Option (ℕ × LeafNode) :=
  if plan.cancellations.any (·.names tree x) then none
  else match plan.fills.find? (·.names tree x) with
    | none => some x
    | some fill => fill.remainder x

namespace PagedBookV3

def Validates (b : PagedBookV3) (plan : V3MatchPlan) : Prop :=
  (∀ cancel ∈ plan.cancellations, b.checkCancellation cancel = .ok ()) ∧
    ∀ fill ∈ plan.fills, b.checkFill fill = .ok ()

instance (b : PagedBookV3) (plan : V3MatchPlan) : Decidable (b.Validates plan) :=
  inferInstanceAs (Decidable (_ ∧ _))

/-- An order with a key rests in a tree under a handle. -/
def Rests (b : PagedBookV3) (tree : TreeKind) (handle : ℕ) (key : Key) : Prop :=
  ∃ leaf, (handle, leaf) ∈ b.leaves tree ∧ leaf.key = key

/-- The book after the order with a tree and key has been exchanged for what remains of it. -/
structure Carried (tree : TreeKind) (key : Key) (rest : ℕ × LeafNode → Option (ℕ × LeafNode))
    (b b' : PagedBookV3) : Prop where
  wellFormed : b'.WellFormed
  leaves : ∀ k, b'.leaves k =
    (b.leaves k).filterMap fun x => if named tree key k x then rest x else some x

variable {b b' : PagedBookV3} {tree tree' : TreeKind} {i j : ℕ} {key key' : Key}
  {rest : ℕ × LeafNode → Option (ℕ × LeafNode)} {x y : ℕ × LeafNode} {plan : V3MatchPlan}
  {cancel : V3SelfTradeCancellation} {fill : V3Fill}

theorem named_iff {k : TreeKind} : named tree key k x = true ↔ k = tree ∧ x.2.key = key := by
  simp [named]

/-! ## One entry -/

theorem WellFormed.handle_eq (hb : b.WellFormed) (hr : b.Rests tree i key) {k : TreeKind}
    (hx : x ∈ b.leaves k) (hn : named tree key k x = true) : x.1 = i := by
  obtain ⟨leaf, hmem, hk⟩ := hr
  obtain ⟨rfl, hkx⟩ := named_iff.1 hn
  rw [hb.leaf_ext hx hmem (hkx.trans hk.symm)]

theorem Carried.rests (hb : b.WellFormed) (h : Carried tree key rest b b') (hr : b.Rests tree i key)
    (hr' : b.Rests tree' j key') (hne : j ≠ i) : b'.Rests tree' j key' := by
  obtain ⟨leaf, hmem, hk⟩ := hr'
  refine ⟨leaf, ?_, hk⟩
  rw [h.leaves, mem_filterMap]
  refine ⟨(j, leaf), hmem, if_neg ?_⟩
  intro hn
  exact hne (hb.handle_eq hr hmem hn)

theorem WellFormed.leaves_eq_of_perm (hb' : b'.WellFormed) {l : List (ℕ × LeafNode)}
    (hs : l.Pairwise fun x y => x.2.key < y.2.key) (hp : (b'.leaves tree).Perm l) :
    b'.leaves tree = l := by
  apply Perm.eq_of_pairwise _ (hb'.leaves_sorted tree) hs hp
  intro x y _ _ hxy hyx
  exact absurd hyx (not_lt.2 hxy.le)

theorem Exchanged.carried (hb : b.WellFormed) (hb' : b'.WellFormed) (hx : x ∈ b.leaves tree)
    (hex : Exchanged tree [x] (rest x).toList b b')
    (hkey : ∀ x y, rest x = some y → y.2.key = x.2.key) : Carried tree x.2.key rest b b' := by
  refine ⟨hb', fun k => ?_⟩
  by_cases hk : k = tree
  · subst hk
    apply hb'.leaves_eq_of_perm
    · refine (hb.leaves_sorted k).filterMap _ fun y z hyz y' hy' z' hz' => ?_
      have hs : ∀ u u', (if named k x.2.key k u then rest u else some u) = some u' →
          u'.2.key = u.2.key := by
        intro u u' hu
        split at hu
        · exact hkey u u' hu
        · rw [Option.some.inj hu]
      rw [hs y y' hy', hs z z' hz']
      exact hyz
    · have hnd : (b.leaves k).Nodup :=
        (hb.leaves_sorted k).imp fun hlt heq => absurd (heq ▸ hlt) (lt_irrefl _)
      have hse : (if named k x.2.key k x then rest x else some x) = rest x :=
        if_pos (named_iff.2 ⟨rfl, rfl⟩)
      apply perm_filterMap_of_exchange hx hnd
      · intro y hy hne
        apply if_neg
        intro hn
        exact hne (hb.leaf_ext hy hx (named_iff.1 hn).2)
      · rw [hse]
        exact hex.perm
  · rw [hex.other k hk, filterMap_eq_self]
    intro y _
    exact if_neg fun hn => hk (named_iff.1 hn).1

theorem WellFormed.remove_carried (hb : b.WellFormed) (hr : b.Rests tree i key) :
    ∃ leaf b', PagedBookV3.remove tree key b = .ok leaf b' ∧
      Carried tree key (fun _ => none) b b' := by
  obtain ⟨leaf, hmem, rfl⟩ := hr
  obtain ⟨b', hrun, hb', hex, -⟩ := hb.remove hmem
  exact ⟨leaf, b', hrun, Exchanged.carried hb hb' hmem hex (by simp)⟩

theorem WellFormed.putLeaf_carried (hb : b.WellFormed) (hr : b.Rests tree i key) (quantity : ℕ) :
    ∃ leaf b', b.leaf i = .ok leaf ∧ PagedBookV3.putLeaf i { leaf with quantity } b = .ok () b' ∧
      Carried tree key (fun x => some (x.1, { x.2 with quantity })) b b' := by
  obtain ⟨leaf, hmem, rfl⟩ := hr
  obtain ⟨b', hrun, hb', hex, -⟩ := hb.putLeaf { leaf with quantity } hmem rfl rfl
  refine ⟨leaf, b', hb.leaf_eq hmem, hrun, Exchanged.carried hb hb' hmem hex ?_⟩
  rintro x _ ⟨⟩
  rfl

theorem WellFormed.applyCancellation_carried (hb : b.WellFormed)
    (hr : b.Rests cancel.makerTree i cancel.key) :
    ∃ b', applyCancellation cancel b = .ok () b' ∧
      Carried cancel.makerTree cancel.key (fun _ => none) b b' := by
  obtain ⟨leaf, b', hrun, hc⟩ := hb.remove_carried hr
  exact ⟨b', run_bind_of_ok hrun, hc⟩

theorem WellFormed.applyFill_carried (hb : b.WellFormed)
    (hr : b.Rests fill.makerTree fill.makerHandle fill.key) :
    ∃ b', applyFill fill b = .ok () b' ∧ Carried fill.makerTree fill.key fill.remainder b b' := by
  unfold applyFill remainder
  split
  · obtain ⟨leaf, b', hrun, hc⟩ := hb.remove_carried hr
    exact ⟨b', run_bind_of_ok hrun, hc⟩
  · obtain ⟨leaf, b', hl, hrun, hc⟩ := hb.putLeaf_carried hr fill.makerRemaining
    exact ⟨b', run_bind_eq_ok.2 ⟨leaf, b, run_reading_eq_ok.2 ⟨hl, rfl⟩, hrun⟩, hc⟩

/-! ## The two loops -/

theorem WellFormed.applyCancellations (hb : b.WellFormed) {cancels : List V3SelfTradeCancellation}
    (hr : ∀ c ∈ cancels, b.Rests c.makerTree c.makerHandle c.key)
    (hnd : (cancels.map (·.makerHandle)).Nodup) :
    ∃ b', cancels.forM applyCancellation b = .ok () b' ∧ b'.WellFormed ∧
      (∀ k, b'.leaves k =
        (b.leaves k).filterMap fun x => if cancels.any (·.names k x) then none else some x) ∧
      ∀ tree i key, b.Rests tree i key → i ∉ cancels.map (·.makerHandle) → b'.Rests tree i key := by
  induction cancels generalizing b with
  | nil => exact ⟨b, rfl, hb, fun k => by simp, fun _ _ _ hr _ => hr⟩
  | cons c cancels ih =>
    rw [map_cons, nodup_cons] at hnd
    rw [forall_mem_cons] at hr
    obtain ⟨b₁, hrun, hc⟩ := hb.applyCancellation_carried hr.1
    have hr₁ : ∀ d ∈ cancels, b₁.Rests d.makerTree d.makerHandle d.key := by
      intro d hd
      refine hc.rests hb hr.1 (hr.2 d hd) fun heq => hnd.1 ?_
      exact heq ▸ mem_map_of_mem hd
    obtain ⟨b', hre, hb', hl, hk⟩ := ih hc.wellFormed hr₁ hnd.2
    refine ⟨b', run_forM_cons.2 ⟨b₁, hrun, hre⟩, hb', ?_, ?_⟩
    · intro k
      rw [hl, hc.leaves, filterMap_filterMap]
      congr 1
      funext x
      rw [any_cons, V3SelfTradeCancellation.names]
      cases hn : named c.makerTree c.key k x <;> simp
    · intro tree i key hri hi
      rw [map_cons, mem_cons, not_or] at hi
      exact hk tree i key (hc.rests hb hr.1 hri hi.1) hi.2

theorem WellFormed.applyFills (hb : b.WellFormed) {fills : List V3Fill}
    (hr : ∀ f ∈ fills, b.Rests f.makerTree f.makerHandle f.key)
    (hnd : (fills.map (·.makerHandle)).Nodup) :
    ∃ b', fills.forM applyFill b = .ok () b' ∧ b'.WellFormed ∧
      ∀ k, b'.leaves k = (b.leaves k).filterMap fun x =>
        match fills.find? (·.names k x) with
        | none => some x
        | some fill => fill.remainder x := by
  induction fills generalizing b with
  | nil => exact ⟨b, rfl, hb, fun k => by simp⟩
  | cons f fills ih =>
    rw [map_cons, nodup_cons] at hnd
    rw [forall_mem_cons] at hr
    obtain ⟨b₁, hrun, hc⟩ := hb.applyFill_carried hr.1
    have hr₁ : ∀ g ∈ fills, b₁.Rests g.makerTree g.makerHandle g.key := by
      intro g hg
      refine hc.rests hb hr.1 (hr.2 g hg) fun heq => hnd.1 ?_
      exact heq ▸ mem_map_of_mem hg
    obtain ⟨b', hre, hb', hl⟩ := ih hc.wellFormed hr₁ hnd.2
    refine ⟨b', run_forM_cons.2 ⟨b₁, hrun, hre⟩, hb', fun k => ?_⟩
    rw [hl, hc.leaves, filterMap_filterMap]
    apply filterMap_congr
    intro x hx
    cases hn : f.names k x with
    | false =>
      have hna : named f.makerTree f.key k x = false := hn
      simp [hna, hn]
    | true =>
      have hno : fills.find? (·.names k x) = none := by
        rw [find?_eq_none]
        intro g hg hng
        refine hnd.1 ?_
        rw [← hb.handle_eq hr.1 hx hn, hb.handle_eq (hr.2 g hg) hx hng]
        exact mem_map_of_mem hg
      have hna : named f.makerTree f.key k x = true := hn
      simp only [hna, if_true, find?_cons, hn]
      unfold remainder
      split
      · rfl
      · have hn' : fills.find? (·.names k (x.1, { x.2 with quantity := f.makerRemaining })) =
            none := hno
        simp only [Option.bind_some, hn']

/-! ## Whole plans -/

theorem WellFormed.rests_of_checkCancellation (hb : b.WellFormed)
    (h : b.checkCancellation cancel = .ok ()) :
    b.Rests cancel.makerTree cancel.makerHandle cancel.key := by
  simp only [checkCancellation, bind_eq_ok, require_eq_ok] at h
  obtain ⟨current, -, ⟨⟩, -, handle, hf, rfl⟩ := h
  exact hb.find_eq_ok.1 hf

theorem WellFormed.checkFill_eq_ok (hb : b.WellFormed) (h : b.checkFill fill = .ok ()) :
    ∃ leaf, (fill.makerHandle, leaf) ∈ b.leaves fill.makerTree ∧ leaf.key = fill.key ∧
      leaf.quantity = fill.quantity + fill.makerRemaining := by
  simp only [checkFill, bind_eq_ok, require_eq_ok] at h
  obtain ⟨current, hc, ⟨⟩, -, handle, hf, rfl, hq⟩ := h
  obtain ⟨leaf, hmem, hk⟩ := hb.find_eq_ok.1 hf
  obtain rfl : leaf = current := by simpa [hb.leaf_eq hmem] using hc
  exact ⟨leaf, hmem, hk, hq⟩

theorem applyMatchPlan_of_not_validates (h : ¬b.Validates plan) :
    ∃ e, applyMatchPlan plan b = .error e b := by
  unfold applyMatchPlan
  rcases run_forM_reading_cases plan.cancellations (fun cancel b => b.checkCancellation cancel) b
    with hok | ⟨e, he⟩
  · rw [run_bind_of_ok hok]
    rcases run_forM_reading_cases plan.fills (fun fill b => b.checkFill fill) b
      with hok' | ⟨e, he⟩
    · exact absurd ⟨(run_forM_reading.1 hok).1, (run_forM_reading.1 hok').1⟩ h
    · exact ⟨e, run_bind_of_error he⟩
  · exact ⟨e, run_bind_of_error he⟩

theorem WellFormed.outcome_le (hb : b.WellFormed) (hv : b.Validates plan) (hx : x ∈ b.leaves tree)
    (h : plan.outcome tree x = some y) :
    y.1 = x.1 ∧ y.2 = { x.2 with quantity := y.2.quantity } ∧ y.2.quantity ≤ x.2.quantity := by
  unfold V3MatchPlan.outcome at h
  split at h
  · simp at h
  split at h
  · obtain rfl := Option.some.inj h
    exact ⟨rfl, rfl, le_rfl⟩
  · rename_i fill hf
    have hn := find?_some (p := fun fill => names fill tree x) hf
    obtain ⟨leaf, hmem, hk, hq⟩ := hb.checkFill_eq_ok (hv.2 fill (mem_of_find?_eq_some hf))
    obtain ⟨rfl, hkx⟩ := named_iff.1 hn
    obtain rfl := hb.leaf_ext hx hmem (hkx.trans hk.symm)
    unfold remainder at h
    split at h
    · simp at h
    · obtain rfl := Option.some.inj h
      exact ⟨rfl, rfl, by dsimp only at hq ⊢; omega⟩

theorem WellFormed.applyMatchPlan_of_validates (hb : b.WellFormed)
    (hnd : (plan.cancellations.map (·.makerHandle) ++ plan.fills.map (·.makerHandle)).Nodup)
    (hv : b.Validates plan) :
    ∃ b', applyMatchPlan plan b = .ok () b' ∧ b'.WellFormed ∧
      ∀ tree, b'.leaves tree = (b.leaves tree).filterMap (plan.outcome tree) := by
  obtain ⟨hca, hfi, hd⟩ := nodup_append.1 hnd
  have hrc : ∀ c ∈ plan.cancellations, b.Rests c.makerTree c.makerHandle c.key := fun c hc =>
    hb.rests_of_checkCancellation (hv.1 c hc)
  obtain ⟨b₁, hr₁, hb₁, hl₁, hk⟩ := hb.applyCancellations hrc hca
  have hrf : ∀ f ∈ plan.fills, b₁.Rests f.makerTree f.makerHandle f.key := by
    intro f hf
    obtain ⟨leaf, hmem, hkey, -⟩ := hb.checkFill_eq_ok (hv.2 f hf)
    refine hk _ _ _ ⟨leaf, hmem, hkey⟩ fun hin => ?_
    exact hd _ hin _ (mem_map_of_mem hf) rfl
  obtain ⟨b', hr', hb', hl'⟩ := hb₁.applyFills hrf hfi
  refine ⟨b', ?_, hb', fun tree => ?_⟩
  · simp only [applyMatchPlan, run_bind_eq_ok, run_forM_reading]
    exact ⟨(), b, ⟨hv.1, rfl⟩, (), b, ⟨hv.2, rfl⟩, (), b₁, hr₁, hr'⟩
  · rw [hl', hl₁, filterMap_filterMap]
    congr 1
    funext x
    unfold V3MatchPlan.outcome
    split <;> rfl

/-- A plan over distinct makers that does not pass its checks changes nothing; any other removes the
orders it cancels and fills, lowers those it fills in part, and keeps the rest. -/
theorem applyMatchPlan_exact (hb : b.WellFormed)
    (hnd : (plan.cancellations.map (·.makerHandle) ++ plan.fills.map (·.makerHandle)).Nodup) :
    (¬b.Validates plan → ∃ e, applyMatchPlan plan b = .error e b) ∧
    (b.Validates plan →
      (∃ b', applyMatchPlan plan b = .ok () b' ∧ b'.WellFormed ∧
        ∀ tree, b'.leaves tree = (b.leaves tree).filterMap (plan.outcome tree)) ∧
      ∀ tree, ∀ x ∈ b.leaves tree, ∀ y, plan.outcome tree x = some y →
        y.1 = x.1 ∧ y.2 = { x.2 with quantity := y.2.quantity } ∧ y.2.quantity ≤ x.2.quantity) :=
  ⟨applyMatchPlan_of_not_validates, fun hv => ⟨hb.applyMatchPlan_of_validates hnd hv,
    fun _ _ hx _ => hb.outcome_le hv hx⟩⟩

def insertPair : BookM Unit := do
  let _ ← insert .fixed (sampleLeaf 5 2)
  let _ ← insert .fixed (sampleLeaf 9 3)

theorem wellFormed_of_insertPair (h : insertPair fresh = .ok () b) : b.WellFormed := by
  simp only [insertPair, run_bind_eq_ok, run_pure_eq_ok] at h
  obtain ⟨_, b₁, h₁, _, b₂, h₂, -, rfl⟩ := h
  have hf : fresh.WellFormed := ⟨_, _, fresh_prepared.layout⟩
  exact ((hf.insert h₁).1.insert h₂).1

def samplePlan : V3MatchPlan where
  fills := [{ makerTree := .fixed, makerHandle := 1, makerOwner := 1, key := 9, price := 10,
              reservePrice := 10, quantity := 1, makerRemaining := 2 }]
  takerRemaining := 0
  cancellations := [{ makerTree := .fixed, makerHandle := 0, makerOwner := 1, key := 5,
                      quantity := 2, price := 10, reservePrice := 10, side := .ask }]

theorem applyMatchPlan_exact_of_samplePlan : ∃ b b', insertPair fresh = .ok () b ∧
    b.Validates samplePlan ∧ applyMatchPlan samplePlan b = .ok () b' ∧ b'.WellFormed ∧
      ∀ tree, b'.leaves tree = (b.leaves tree).filterMap (samplePlan.outcome tree) := by
  have hr : insertPair fresh = .ok () (finalState (insertPair fresh)) :=
    eq_ok_of_isOk (by decide +kernel)
  have hv : (finalState (insertPair fresh)).Validates samplePlan := by decide +kernel
  have hb := wellFormed_of_insertPair hr
  obtain ⟨b', hr', hb', hl⟩ := ((applyMatchPlan_exact hb (by decide)).2 hv).1
  exact ⟨_, b', hr, hv, hr', hb', hl⟩

end PagedBookV3

end Equinox
