import Mathlib

/-! # Crit-bit trees

Binary trees over bit-string keys in which every inner node records the length
of the prefix its leaves share, one representative of that prefix, and branches
on the first bit after it. Leaves carry a value with its key; every node carries
the handle of the cell that stores it.
-/

namespace CritBit

/-- Keys read as bit strings of one fixed width, compared in the order of those strings. -/
class BitKey (K : Type*) [LinearOrder K] where
  width : ℕ
  bit : K → ℕ → Bool
  /-- Length of the longest common prefix. -/
  lcp : K → K → ℕ
  bit_eq_of_lt_lcp : ∀ {a b : K} {i : ℕ}, i < lcp a b → bit a i = bit b i
  bit_lcp_ne : ∀ {a b : K}, a ≠ b → bit a (lcp a b) ≠ bit b (lcp a b)
  lcp_lt_width : ∀ {a b : K}, a ≠ b → lcp a b < width
  width_le_lcp_self : ∀ a : K, width ≤ lcp a a
  lt_of_bit : ∀ {a b : K} {p : ℕ}, p < width → (∀ i < p, bit a i = bit b i) →
    bit a p = false → bit b p = true → a < b

/-- A two-way branch with one value on side `c` and another on the opposite side. -/
def sided {α : Type*} (c : Bool) (x y : α) : Bool → α := fun d => if d = c then x else y

section Sided

variable {α β : Type*} {c : Bool} {x y : α}

@[simp] theorem sided_self : sided c x y c = x := by simp [sided]

@[simp] theorem sided_not : sided c x y (!c) = y := by simp [sided]

theorem map_sided (f : α → β) : (fun d => f (sided c x y d)) = sided c (f x) (f y) := by
  funext d; unfold sided; split <;> rfl

theorem sided_eta (g : Bool → α) : sided c (g c) (g (!c)) = g := by
  funext d; cases c <;> cases d <;> rfl

theorem forall_sided {p : α → Prop} : (∀ d, p (sided c x y d)) ↔ p x ∧ p y := by
  cases c <;> simp [Bool.forall_bool, sided, and_comm]

end Sided

section Agree

variable {K : Type*} [LinearOrder K] [BitKey K]

open BitKey

def Agree (n : ℕ) (a b : K) : Prop := ∀ i < n, bit a i = bit b i

variable {n : ℕ} {a b : K}

theorem Agree.symm (h : Agree n a b) : Agree n b a :=
  fun i hi => (h i hi).symm

theorem Agree.trans {c : K} (h : Agree n a b) (h' : Agree n b c) : Agree n a c :=
  fun i hi => (h i hi).trans (h' i hi)

theorem Agree.mono {m : ℕ} (h : Agree n a b) (hm : m ≤ n) : Agree m a b :=
  fun i hi => h i (by omega)

theorem agree_lcp (a b : K) : Agree (lcp a b) a b := fun _ hi => bit_eq_of_lt_lcp hi

theorem le_lcp_iff (hn : n ≤ width K) (a b : K) : n ≤ lcp a b ↔ Agree n a b := by
  constructor
  · exact fun h => (agree_lcp a b).mono h
  · intro h
    by_contra hlt
    rcases eq_or_ne a b with rfl | hne
    · have := width_le_lcp_self a
      omega
    · exact bit_lcp_ne hne (h _ (by omega))

end Agree

inductive Tree (K V : Type*) where
  | leaf (handle : ℕ) (value : V)
  | inner (handle prefixLen : ℕ) (rep : K) (child : Bool → Tree K V)

namespace Tree

variable {K V : Type*}

def handle : Tree K V → ℕ
  | leaf h _ => h
  | inner h _ _ _ => h

/-- The leaves with their handles, from left to right. -/
def leaves : Tree K V → List (ℕ × V)
  | leaf h v => [(h, v)]
  | inner _ _ _ child => (child false).leaves ++ (child true).leaves

def handles : Tree K V → List ℕ
  | leaf h _ => [h]
  | inner h _ _ child => h :: ((child false).handles ++ (child true).handles)

def depth : Tree K V → ℕ
  | leaf _ _ => 0
  | inner _ _ _ child => max (child false).depth (child true).depth + 1

/-- The least value of a measure over the leaves, as inner nodes cache it. -/
def least {E : Type*} [LinearOrder E] (due : V → E) : Tree K V → E
  | leaf _ v => due v
  | inner _ _ _ child => min ((child false).least due) ((child true).least due)

variable {t : Tree K V}

variable {h : ℕ}

@[simp] theorem handle_leaf {v : V} : (leaf h v : Tree K V).handle = h := rfl

variable {p : ℕ} {rep : K} {child : Bool → Tree K V}

@[simp] theorem handle_inner : (inner h p rep child).handle = h := rfl

theorem leaves_ne_nil (t : Tree K V) : t.leaves ≠ [] := by
  induction t with
  | leaf => simp [leaves]
  | inner _ _ _ child ih => simp [leaves, ih]

theorem handle_mem_handles (t : Tree K V) : t.handle ∈ t.handles := by
  cases t <;> simp [handle, handles]

variable {x : ℕ × V}

theorem mem_leaves_inner : x ∈ (inner h p rep child).leaves ↔ ∃ c, x ∈ (child c).leaves := by
  simp [leaves]

theorem mem_handles_inner {i : ℕ} :
    i ∈ (inner h p rep child).handles ↔ i = h ∨ ∃ c, i ∈ (child c).handles := by
  simp [handles]

theorem leaf_handle_mem (hx : x ∈ t.leaves) : x.1 ∈ t.handles := by
  induction t with
  | leaf => simp_all [leaves, handles]
  | inner _ _ _ child ih =>
    obtain ⟨c, hc⟩ := mem_leaves_inner.1 hx
    exact mem_handles_inner.2 (.inr ⟨c, ih c hc⟩)

theorem depth_child_lt (h p : ℕ) (rep : K) (child : Bool → Tree K V) (c : Bool) :
    (child c).depth < (inner h p rep child).depth := by
  cases c <;> simp only [depth] <;> omega

variable {E : Type*}

theorem exists_least [LinearOrder E] (due : V → E) (t : Tree K V) :
    ∃ x ∈ t.leaves, due x.2 = t.least due := by
  induction t with
  | leaf h v => exact ⟨(h, v), by simp [leaves], rfl⟩
  | inner _ _ _ child ih =>
    rcases min_choice ((child false).least due) ((child true).least due) with hm | hm
    · obtain ⟨x, hx, he⟩ := ih false
      exact ⟨x, mem_leaves_inner.2 ⟨_, hx⟩, by simp only [least, hm, he]⟩
    · obtain ⟨x, hx, he⟩ := ih true
      exact ⟨x, mem_leaves_inner.2 ⟨_, hx⟩, by simp only [least, hm, he]⟩

theorem least_le [LinearOrder E] (due : V → E) (hx : x ∈ t.leaves) : t.least due ≤ due x.2 := by
  induction t with
  | leaf => simp_all [leaves, least]
  | inner _ _ _ child ih =>
    obtain ⟨c, hc⟩ := mem_leaves_inner.1 hx
    cases c
    · exact (min_le_left _ _).trans (ih _ hc)
    · exact (min_le_right _ _).trans (ih _ hc)

/-- The leaf with the least key: the end of the leftmost branch. -/
def leftmost : Tree K V → ℕ × V
  | leaf h v => (h, v)
  | inner _ _ _ child => (child false).leftmost

theorem exists_leaves_eq_cons (t : Tree K V) : ∃ rest, t.leaves = t.leftmost :: rest := by
  induction t with
  | leaf => exact ⟨[], rfl⟩
  | inner _ _ _ child ih =>
    obtain ⟨rest, h⟩ := ih false
    exact ⟨rest ++ (child true).leaves, by simp [leaves, leftmost, h]⟩

/-- The walk towards a leaf whose measure is at most `now`, guided by the cached minima. -/
def firstDue {E : Type*} [LinearOrder E] (due : V → E) (now : E) : Tree K V → Option (ℕ × V)
  | leaf h v => if due v ≤ now then some (h, v) else none
  | inner _ _ _ child =>
    if (child false).least due ≤ now then (child false).firstDue due now
    else if (child true).least due ≤ now then (child true).firstDue due now
    else none

theorem mem_of_firstDue [LinearOrder E] {due : V → E} {now : E}
    (h : t.firstDue due now = some x) : x ∈ t.leaves ∧ due x.2 ≤ now := by
  induction t with
  | leaf =>
    simp only [firstDue, Option.ite_none_right_eq_some, Option.some.injEq] at h
    obtain ⟨hd, rfl⟩ := h
    exact ⟨by simp [leaves], hd⟩
  | inner _ _ _ child ih =>
    simp only [firstDue] at h
    split_ifs at h
    · exact ⟨mem_leaves_inner.2 ⟨_, (ih _ h).1⟩, (ih _ h).2⟩
    · exact ⟨mem_leaves_inner.2 ⟨_, (ih _ h).1⟩, (ih _ h).2⟩

theorem firstDue_eq_none_iff [LinearOrder E] {due : V → E} {now : E} :
    t.firstDue due now = none ↔ ∀ x ∈ t.leaves, now < due x.2 := by
  induction t with
  | leaf => simp [firstDue, leaves]
  | inner h p rep child ih =>
    have hl (c : Bool) : (∀ x ∈ (child c).leaves, now < due x.2) ↔ ¬ (child c).least due ≤ now := by
      constructor
      · intro ha hle
        obtain ⟨x, hx, he⟩ := exists_least due (child c)
        exact absurd (he ▸ ha x hx) (not_lt.2 hle)
      · exact fun hn x hx => (not_le.1 hn).trans_le (least_le due hx)
    simp only [firstDue, mem_leaves_inner, forall_exists_index]
    rw [forall_comm]
    simp only [Bool.forall_bool]
    split_ifs with hf ht
    · rw [ih, hl]; simp [hf]
    · rw [ih, hl, hl]; simp [hf, ht]
    · rw [hl, hl]; simp [hf, ht]

section WellFormed

variable [LinearOrder K] [BitKey K]

open BitKey

/-- Every leaf below an inner node has the node's prefix and, at the branching bit, its own side. -/
def WF (key : V → K) : Tree K V → Prop
  | leaf _ _ => True
  | inner _ p rep child => p < width K ∧ (∀ c, (child c).WF key) ∧
      ∀ c, ∀ x ∈ (child c).leaves, Agree p rep (key x.2) ∧ bit (key x.2) p = c

variable {key : V → K}

theorem WF.agree_leaves
    (hw : (inner h p rep child).WF key) (hx : x ∈ (inner h p rep child).leaves) :
    Agree p rep (key x.2) := by
  obtain ⟨c, hc⟩ := mem_leaves_inner.1 hx
  exact (hw.2.2 c x hc).1

theorem WF.leaves_sorted (hw : t.WF key) : t.leaves.Pairwise (fun x y => key x.2 < key y.2) := by
  induction t with
  | leaf => simp [leaves]
  | inner h p rep child ih =>
    refine List.pairwise_append.2 ⟨ih _ (hw.2.1 _), ih _ (hw.2.1 _), ?_⟩
    intro x hx y hy
    have hx' := hw.2.2 _ x hx
    have hy' := hw.2.2 _ y hy
    exact lt_of_bit hw.1 (hx'.1.symm.trans hy'.1) hx'.2 hy'.2

theorem WF.leaf_ext (hw : t.WF key) {y : ℕ × V} (hx : x ∈ t.leaves) (hy : y ∈ t.leaves)
    (h : key x.2 = key y.2) : x = y := by
  have hs : (t.leaves.map fun x => key x.2).Nodup :=
    (List.pairwise_map.2 hw.leaves_sorted).imp ne_of_lt
  exact List.inj_on_of_nodup_map hs hx hy h

theorem WF.prefixLen_lt
    (hw : (inner h p rep child).WF key) {c : Bool} {h' p' : ℕ} {rep' : K}
    {child' : Bool → Tree K V} (hc : child c = inner h' p' rep' child') : p < p' := by
  obtain ⟨x, hx⟩ := List.exists_mem_of_ne_nil _ (leaves_ne_nil (child' false))
  obtain ⟨y, hy⟩ := List.exists_mem_of_ne_nil _ (leaves_ne_nil (child' true))
  have hw' : (inner h' p' rep' child').WF key := hc ▸ hw.2.1 c
  have hxc := hw.2.2 c x (by rw [hc]; exact mem_leaves_inner.2 ⟨_, hx⟩)
  have hyc := hw.2.2 c y (by rw [hc]; exact mem_leaves_inner.2 ⟨_, hy⟩)
  have hne : bit (key x.2) p' ≠ bit (key y.2) p' := by
    simp [(hw'.2.2 _ x hx).2, (hw'.2.2 _ y hy).2]
  by_contra hle
  rcases Nat.lt_or_eq_of_le (Nat.le_of_not_lt hle) with hlt | rfl
  · exact hne ((hxc.1.symm.trans hyc.1) _ hlt)
  · exact hne (hxc.2.trans hyc.2.symm)

/-- The key a node is known by: its own, or the representative of its prefix. -/
def top (key : V → K) : Tree K V → K
  | leaf _ v => key v
  | inner _ _ rep _ => rep

/-- A node continues a prefix on one side: what a node can be asked without its subtree. -/
def Below (key : V → K) (p : ℕ) (rep : K) (c : Bool) (t : Tree K V) : Prop :=
  Agree p rep (t.top key) ∧ bit (t.top key) p = c ∧
    ∀ h p' rep' child, t = inner h p' rep' child → p < p'

/-- Well-formedness compares each node with its parent only. -/
theorem wf_inner_iff :
    (inner h p rep child).WF key ↔
      p < width K ∧ ∀ c, (child c).WF key ∧ (child c).Below key p rep c := by
  constructor
  · intro hw
    refine ⟨hw.1, fun c => ⟨hw.2.1 c, ?_⟩⟩
    obtain ⟨x, hx⟩ := List.exists_mem_of_ne_nil _ (leaves_ne_nil (child c))
    obtain ⟨ha, hb⟩ := hw.2.2 c x hx
    cases hc : child c with
    | leaf h' v =>
      rw [hc] at hx
      obtain rfl : x = (h', v) := by simpa [leaves] using hx
      exact ⟨ha, hb, by simp⟩
    | inner h' p' rep' child' =>
      have hlt := hw.prefixLen_lt hc
      have hch : (inner h' p' rep' child').WF key := hc ▸ hw.2.1 c
      have hr := hch.agree_leaves (hc ▸ hx)
      refine ⟨ha.trans (hr.mono hlt.le).symm, (hr p hlt).trans hb, ?_⟩
      rintro _ _ _ _ ⟨⟩
      exact hlt
  · rintro ⟨hp, hch⟩
    refine ⟨hp, fun c => (hch c).1, fun c x hx => ?_⟩
    obtain ⟨hw, ha, hb, hlt⟩ := hch c
    cases hc : child c with
    | leaf h' v =>
      rw [hc] at hx ha hb
      obtain rfl : x = (h', v) := by simpa [leaves] using hx
      exact ⟨ha, hb⟩
    | inner h' p' rep' child' =>
      rw [hc] at hw hx ha hb
      have hlt := hlt _ _ _ _ hc
      have hr := hw.agree_leaves hx
      exact ⟨ha.trans (hr.mono hlt.le), (hr p hlt).symm.trans hb⟩

theorem WF.depth_le (hw : t.WF key) : t.depth ≤ width K := by
  suffices h : ∀ h p rep child, t = inner h p rep child → t.depth + p ≤ width K by
    cases t with
    | leaf => simp [depth]
    | inner i p rep child => exact (Nat.le_add_right _ _).trans (h i p rep child rfl)
  induction t with
  | leaf => simp
  | inner i p rep child ih =>
    rintro _ _ _ _ ⟨⟩
    have hch (c : Bool) : (child c).depth + p < width K := by
      cases hc : child c with
      | leaf => simpa [depth] using hw.1
      | inner i' p' rep' child' =>
        have := ih c (hw.2.1 c) _ _ _ _ hc
        have := hw.prefixLen_lt hc
        rw [← hc]
        omega
    have hf := hch false
    have ht := hch true
    simp only [depth]
    omega

/-- The search for a key: descend while the node's prefix is the key's own. -/
def descend (key : V → K) (k : K) : Tree K V → Option (ℕ × V)
  | leaf h v => if key v = k then some (h, v) else none
  | inner _ p rep child =>
    if p ≤ lcp rep k then (child (bit k p)).descend key k else none

theorem WF.descend_eq_some_iff (hw : t.WF key) {k : K} :
    t.descend key k = some x ↔ x ∈ t.leaves ∧ key x.2 = k := by
  induction t with
  | leaf h v =>
    simp only [descend, leaves, Option.ite_none_right_eq_some, Option.some.injEq,
      List.mem_singleton]
    constructor
    · rintro ⟨rfl, rfl⟩; exact ⟨rfl, rfl⟩
    · rintro ⟨rfl, rfl⟩; exact ⟨rfl, rfl⟩
  | inner h p rep child ih =>
    simp only [descend, Option.ite_none_right_eq_some, ih _ (hw.2.1 _), mem_leaves_inner]
    constructor
    · rintro ⟨_, hx, hk⟩
      exact ⟨⟨_, hx⟩, hk⟩
    · rintro ⟨⟨c, hx⟩, rfl⟩
      obtain ⟨ha, hb⟩ := hw.2.2 c x hx
      exact ⟨(le_lcp_iff hw.1.le _ _).2 ha, hb ▸ hx, rfl⟩

end WellFormed

end Tree

end CritBit
