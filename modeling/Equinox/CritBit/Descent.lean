import Equinox.CritBit.Context

/-! # Descents

A memory that stores a tree is walked from the handle of its root. What a walk
returns follows from what it does at a single cell, so these rules say nothing of
how the memory keeps its cells.
-/

namespace CritBit

variable {K V E ε α : Type*} [LinearOrder E] {due : V → E} {holds : ℕ → Cell K V E → Prop}
  {t : Tree K V} {fs : List (Frame K V)} {i room : ℕ}

/-- The entries a descent through some frames records. -/
def pathOf (fs : List (Frame K V)) : List (ℕ × Bool) := fs.map fun f => (f.handle, f.branch)

/-- A walk with fuel for every level returns what is read off the tree, if that holds at a leaf and
passes from the children of a node to the node. -/
theorem Tree.Stored.walk_eq {fuel : ℕ} (walk : ℕ → ℕ → α) (read : Tree K V → α)
    (leaf : ∀ i v fuel, holds i (.leaf v) → walk (fuel + 1) i = read (.leaf i v))
    (inner : ∀ i p rep child fuel,
      holds i (.inner p rep (fun c => (child c).handle) fun c => (child c).least due) →
      0 < fuel → (∀ c, walk fuel (child c).handle = read (child c)) →
      walk (fuel + 1) i = read (.inner i p rep child))
    (h : t.Stored due holds) (hf : t.depth < fuel) : walk fuel t.handle = read t := by
  induction t generalizing fuel with
  | leaf i v =>
    obtain ⟨fuel, rfl⟩ := Nat.exists_eq_succ_of_ne_zero (Nat.ne_zero_of_lt hf)
    exact leaf i v fuel h
  | inner i p rep child ih =>
    obtain ⟨fuel, rfl⟩ := Nat.exists_eq_succ_of_ne_zero (Nat.ne_zero_of_lt hf)
    have hd (c : Bool) : (child c).depth < fuel := by
      have := depth_child_lt i p rep child c
      omega
    exact inner i p rep child fuel h.1 (Nat.zero_lt_of_lt (hd true)) fun c => ih c (h.2 c) (hd c)

variable [LinearOrder K] [BitKey K] {key : V → K} {k : K}

open BitKey

/-- The descent of a removal ends at a leaf, through the frames above it, unless a prefix on the
way already excludes the key. -/
theorem Tree.Stored.path_cases {e : ε}
    {walk : ℕ → List (ℕ × Bool) → ℕ → Except ε (List (ℕ × Bool) × ℕ)}
    (leaf : ∀ i v room path, holds i (.leaf v) → walk room path i = .ok (path, i))
    (inner : ∀ i p rep children cache room path, holds i (.inner p rep children cache) →
      walk (room + 1) path i = if lcp rep k < p then .error e
        else walk room ((i, bit k p) :: path) (children (bit k p)))
    (h : t.Stored due holds) (hr : t.depth ≤ room) (path : List (ℕ × Bool)) :
    (walk room path t.handle = .error e ∧ t.descend key k = none) ∨
    ∃ fs i v, walk room path t.handle = .ok (pathOf fs ++ path, i) ∧ t = plug fs (.leaf i v) ∧
      t.descend key k = if key v = k then some (i, v) else none := by
  induction t generalizing room path with
  | leaf i v => exact .inr ⟨[], i, v, leaf i v room path h, rfl, rfl⟩
  | inner i p rep child ih =>
    have hd := depth_child_lt i p rep child (bit k p)
    obtain ⟨room, rfl⟩ := Nat.exists_eq_succ_of_ne_zero (Nat.ne_zero_of_lt (hd.trans_le hr))
    rw [handle_inner, inner _ _ _ _ _ _ _ h.1, descend]
    by_cases hp : lcp rep k < p
    · rw [if_pos hp, if_neg (not_le.2 hp)]
      exact .inl ⟨rfl, rfl⟩
    · rw [if_neg hp, if_pos (not_lt.1 hp)]
      have hr' : (child (bit k p)).depth ≤ room := by omega
      rcases ih (bit k p) (h.2 _) hr' ((i, bit k p) :: path) with
        hn | ⟨fs, j, v, hok, hpl, hde⟩
      · exact .inl hn
      · refine .inr ⟨fs ++ [⟨i, p, rep, bit k p, child !(bit k p)⟩], j, v, ?_, ?_, hde⟩
        · rw [hok]
          simp [pathOf]
        · rw [plug_append, ← hpl]
          exact (Frame.fill_branch _ _ _ _ _).symm

/-! ## Forks -/

/-- A subtree of a tree beside which a new key belongs, below a new node of some prefix. -/
structure Fork (key : V → K) (k : K) (o : Option (Tree K V)) (fs : List (Frame K V))
    (t : Tree K V) (p : ℕ) (rep : K) : Prop where
  tree_eq : o = some (plug fs t)
  lt_width : p < width K
  agrees : Agree p rep k
  parts : ∀ x ∈ t.leaves, Agree p rep (key x.2) ∧ bit (key x.2) p = !bit k p
  admits : Admits fs k

variable {o : Option (Tree K V)} {p : ℕ} {rep : K}

theorem bit_lcp_eq_not {a b : K} (h : a ≠ b) : bit a (lcp a b) = !bit b (lcp a b) := by
  have := bit_lcp_ne h
  cases ha : bit a (lcp a b) <;> cases hb : bit b (lcp a b) <;> simp_all

namespace Fork

theorem of_leaf {v : V} (ho : o = some (plug fs (.leaf i v))) (ha : Admits fs k)
    (hk : key v ≠ k) : Fork key k o fs (.leaf i v) (lcp (key v) k) (key v) := by
  refine ⟨ho, lcp_lt_width hk, agree_lcp _ _, ?_, ha⟩
  simpa [Tree.leaves, Agree] using bit_lcp_eq_not hk

theorem of_inner {child : Bool → Tree K V} (ho : o = some (plug fs (.inner i p rep child)))
    (hw : (Tree.inner i p rep child).WF key) (ha : Admits fs k) (hc : lcp rep k < p) :
    Fork key k o fs (.inner i p rep child) (lcp rep k) rep := by
  have hne : rep ≠ k := by
    rintro rfl
    exact absurd ((width_le_lcp_self rep).trans_lt hc) (not_lt.2 hw.1.le)
  refine ⟨ho, lcp_lt_width hne, agree_lcp _ _, fun x hx => ?_, ha⟩
  refine ⟨(hw.agree_leaves hx).mono hc.le, ?_⟩
  rw [← bit_lcp_eq_not hne]
  exact (hw.agree_leaves hx _ hc).symm

theorem key_ne (h : Fork key k o fs t p rep) (hw : (plug fs t).WF key) :
    ∀ x ∈ (plug fs t).leaves, key x.2 ≠ k := by
  intro x hx
  rw [leaves_plug.mem_iff, List.mem_append] at hx
  rcases hx with hx | hx
  · rintro rfl
    simpa using (h.parts x hx).2
  · exact (wf_plug_iff.1 hw).2.2.key_ne h.admits hx

/-- A leaf hung at its fork. -/
theorem wf_hung {v : V} {j : ℕ} (h : Fork key (key v) o fs t p rep) (hw : (plug fs t).WF key) :
    (plug (⟨j, p, rep, bit (key v) p, t⟩ :: fs) (.leaf i v)).WF key := by
  obtain ⟨hwt, hat, hwc⟩ := wf_plug_iff.1 hw
  refine wf_plug_iff.2 ⟨trivial, ?_, h.lt_width, hwt, h.parts, hat, hwc⟩
  simpa [Tree.leaves] using admits_cons.2 ⟨⟨h.agrees, rfl⟩, h.admits⟩

/-- The descent of an insertion ends at its key, or at a fork for it. -/
theorem cases_of_walk {found : α} (walk : ℕ → List (ℕ × Bool) → ℕ → α)
    (hang : List (ℕ × Bool) → ℕ → ℕ → K → α) (fs : List (Frame K V))
    (leaf : ∀ i v room path, holds i (.leaf v) → walk room path i =
      if key v = k then found else hang path i (lcp (key v) k) (key v))
    (inner : ∀ i p rep children cache room path, holds i (.inner p rep children cache) →
      walk (room + 1) path i = if lcp rep k < p then hang path i (lcp rep k) rep
        else walk room ((i, bit k p) :: path) (children (bit k p)))
    (hs : (plug fs t).Stored due holds) (hw : (plug fs t).WF key) (ho : o = some (plug fs t))
    (ha : Admits fs k) (hr : t.depth ≤ room) :
    (walk room (pathOf fs) t.handle = found ∧ ∃ x ∈ (plug fs t).leaves, key x.2 = k) ∨
    ((∀ x ∈ (plug fs t).leaves, key x.2 ≠ k) ∧ ∃ fs' t' p rep, Fork key k o fs' t' p rep ∧
      walk room (pathOf fs) t.handle = hang (pathOf fs') t'.handle p rep) := by
  obtain ⟨hst, -⟩ := contextStored_of_stored hs
  induction t generalizing room fs with
  | leaf i v =>
    rw [Tree.handle_leaf, leaf i v room _ hst]
    by_cases hk : key v = k
    · rw [if_pos hk]
      exact .inl ⟨rfl, (i, v), leaves_plug.mem_iff.2 (by simp [Tree.leaves]), hk⟩
    · rw [if_neg hk]
      have hf := of_leaf ho ha hk
      exact .inr ⟨hf.key_ne hw, fs, _, _, _, hf, rfl⟩
  | inner i p rep child ih =>
    have hd := Tree.depth_child_lt i p rep child (bit k p)
    obtain ⟨room, rfl⟩ := Nat.exists_eq_succ_of_ne_zero (Nat.ne_zero_of_lt (hd.trans_le hr))
    obtain ⟨hwi, -⟩ := wf_plug_iff.1 hw
    rw [Tree.handle_inner, inner _ _ _ _ _ _ _ hst.1]
    by_cases hc : lcp rep k < p
    · rw [if_pos hc]
      have hf := of_inner ho hwi ha hc
      exact .inr ⟨hf.key_ne hw, fs, _, _, _, hf, rfl⟩
    · rw [if_neg hc]
      have hag : Agree p rep k := (le_lcp_iff hwi.1.le _ _).1 (not_lt.1 hc)
      have hfi := Frame.fill_branch i p rep child (bit k p)
      rw [← hfi] at hs hw ho ⊢
      exact ih (bit k p) (⟨i, p, rep, bit k p, child !bit k p⟩ :: fs) hs hw ho
        (admits_cons.2 ⟨⟨hag, rfl⟩, ha⟩) (by omega) (hst.2 _)

end Fork

end CritBit
