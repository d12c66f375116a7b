import Equinox.Book.Storage
import Equinox.Foundation.Linked

/-! # Layout of a paged book

A book lays out at most one tree of each kind, a free list, and the handles an
operation has taken but not yet linked. Together they are the handles below the
bump cursor, each exactly once.
-/

namespace Equinox

open Foundation CritBit Function List

namespace PagedBookV3

def rootHandle (o : Option BookTree) : ℕ := o.elim NONE Tree.handle

def treeHandles (o : Option BookTree) : List ℕ := o.elim [] Tree.handles

def treeLeaves (o : Option BookTree) : List (ℕ × LeafNode) := o.elim [] Tree.leaves

abbrev Forest := TreeKind → Option BookTree

def forestHandles (forest : Forest) : List ℕ :=
  treeHandles (forest .fixed) ++ treeHandles (forest .oraclePegged)

/-- The record of a free slot, by the next slot of the free list. -/
def freeNode (next : ℕ) : Node := if next = NONE then .lastFree else .free next

def FreeNext (b : PagedBookV3) (i next : ℕ) : Prop := b.node i = freeNode next

structure Layout (b : PagedBookV3) (forest : Forest) (free loose : List ℕ) : Prop where
  root : ∀ k, b.root k = rootHandle (forest k)
  stores : ∀ k, ∀ t ∈ forest k, b.Stores t
  wf : ∀ k, ∀ t ∈ forest k, t.WF LeafNode.key
  linked : Linked b.FreeNext NONE b.freeHead free
  count : b.freeCount = free.length
  bump_le : b.bumpIndex ≤ bookSlotsPerSide
  perm : (forestHandles forest ++ (free ++ loose)).Perm (range b.bumpIndex)

variable {b b' : PagedBookV3} {forest : Forest} {free loose hs : List ℕ} {i : ℕ}

def otherTree : TreeKind → TreeKind
  | .fixed => .oraclePegged
  | .oraclePegged => .fixed

theorem nextFree_eq_ok {next : ℕ} (hi : i < bookSlotsPerSide) (h : b.FreeNext i next) :
    b.nextFree i = .ok next := by
  have hb : b.nodeBytes i = .ok (freeNode next) := nodeBytes_eq_ok.2 ⟨hi, h⟩
  rw [nextFree, hb]
  unfold freeNode
  split
  · rename_i hn; rw [hn]; rfl
  · rfl

theorem forestHandles_perm (forest : Forest) (k : TreeKind) :
    (forestHandles forest).Perm (treeHandles (forest k) ++ treeHandles (forest (otherTree k))) := by
  cases k
  · exact .refl _
  · exact perm_append_comm

theorem forestHandles_update (forest : Forest) (k : TreeKind) (o : Option BookTree) :
    (forestHandles (update forest k o)).Perm
      (treeHandles o ++ treeHandles (forest (otherTree k))) := by
  refine (forestHandles_perm _ k).trans ?_
  cases k <;> simp [update, otherTree]

namespace Layout

theorem nodup (L : Layout b forest free loose) :
    (forestHandles forest ++ (free ++ loose)).Nodup := L.perm.nodup_iff.2 nodup_range

theorem lt_bump (L : Layout b forest free loose)
    (h : i ∈ forestHandles forest ++ (free ++ loose)) : i < b.bumpIndex :=
  mem_range.1 (L.perm.mem_iff.1 h)

theorem lt_slots (L : Layout b forest free loose)
    (h : i ∈ forestHandles forest ++ (free ++ loose)) : i < bookSlotsPerSide :=
  (L.lt_bump h).trans_le L.bump_le

theorem mem_forestHandles {k : TreeKind} (h : i ∈ treeHandles (forest k)) :
    i ∈ forestHandles forest := (forestHandles_perm forest k).mem_iff.2 (mem_append_left _ h)

section

variable (L : Layout b forest free loose)

include L

theorem nodup_loose (k : TreeKind) : (treeHandles (forest k) ++ loose).Nodup := by
  have hnd := ((forestHandles_perm forest k).append_right _).nodup_iff.1 L.nodup
  exact hnd.sublist ((sublist_append_left _ _).append (sublist_append_right _ _))

theorem tree_not_free {k : TreeKind}
    (h : i ∈ treeHandles (forest k)) : i ∉ free ++ loose :=
  disjoint_of_nodup_append L.nodup (mem_forestHandles h)

theorem tree_not_other {k k' : TreeKind} (hk : k ≠ k')
    (h : i ∈ treeHandles (forest k)) : i ∉ treeHandles (forest k') := by
  have hnd : (forestHandles forest).Nodup := (nodup_append.1 L.nodup).1
  have hk' : otherTree k = k' := by cases k <;> cases k' <;> simp_all [otherTree]
  rw [(forestHandles_perm forest k).nodup_iff, hk'] at hnd
  exact disjoint_of_nodup_append hnd h

theorem off_loose (ho : AgreeOff hs b b')
    (hsub : ∀ i ∈ hs, i ∈ loose) : Layout b' forest free loose where
  root k := by rw [ho.root, L.root]
  stores k t ht := by
    have hmem {j : ℕ} (hj : j ∈ t.handles) : j ∈ treeHandles (forest k) := by rw [ht]; exact hj
    exact (L.stores k t ht).off ho fun j hj hm =>
      L.tree_not_free (hmem hj) (mem_append_right _ (hsub j hm))
  wf := L.wf
  linked := by
    rw [ho.freeHead]
    refine L.linked.congr fun j hj next hn => ?_
    have hnd := (nodup_append.1 L.nodup).2.1
    rwa [FreeNext, ho.node j fun hm => disjoint_of_nodup_append hnd hj (hsub j hm)]
  count := by rw [ho.freeCount, L.count]
  bump_le := by rw [ho.bumpIndex]; exact L.bump_le
  perm := by rw [ho.bumpIndex]; exact L.perm

/-- A tree may be exchanged for one built from its handles and the loose ones. -/
theorem replace {tree : TreeKind} {o : Option BookTree}
    {loose' : List ℕ} (ho : AgreeOff hs (b.withRoot tree (rootHandle o)) b')
    (hst : ∀ t ∈ o, b'.Stores t) (hwf : ∀ t ∈ o, t.WF LeafNode.key)
    (hsub : ∀ i ∈ hs, i ∈ treeHandles (forest tree))
    (hp : (treeHandles o ++ loose').Perm (treeHandles (forest tree) ++ loose)) :
    Layout b' (update forest tree o) free loose' where
  root k := by
    rw [ho.root, root_withRoot]
    by_cases hk : k = tree
    · subst hk; simp
    · simp [hk, L.root]
  stores k t ht := by
    by_cases hk : k = tree
    · subst hk; exact hst t (by simpa using ht)
    · rw [update_of_ne hk] at ht
      refine (L.stores k t ht).congr fun j hj => ?_
      rw [ho.node j, node_withRoot]
      have hjk : j ∈ treeHandles (forest k) := by rw [ht]; exact hj
      exact fun hm => L.tree_not_other hk hjk (hsub j hm)
  wf k t ht := by
    by_cases hk : k = tree
    · subst hk; exact hwf t (by simpa using ht)
    · rw [update_of_ne hk] at ht
      exact L.wf k t ht
  linked := by
    rw [ho.freeHead, freeHead_withRoot]
    refine L.linked.congr fun j hj next hn => ?_
    rw [FreeNext, ho.node j, node_withRoot]
    · exact hn
    · exact fun hm => L.tree_not_free (hsub j hm) (mem_append_left _ hj)
  count := by rw [ho.freeCount, freeCount_withRoot, L.count]
  bump_le := by rw [ho.bumpIndex, bumpIndex_withRoot]; exact L.bump_le
  perm := by
    rw [ho.bumpIndex, bumpIndex_withRoot]
    refine (perm_iff_count.2 fun a => ?_).trans L.perm
    have hnew := (forestHandles_update forest tree o).count_eq a
    have hold := (forestHandles_perm forest tree).count_eq a
    have hex := hp.count_eq a
    simp only [count_append] at hnew hold hex ⊢
    omega

end

/-- The book after the next unused slot has been handed out. -/
def bumped (b : PagedBookV3) : PagedBookV3 :=
  b.modifyPage 0 fun page => { page with bumpIndex := b.bumpIndex + 1 }

/-- The book after the first slot of the free list has been handed out. -/
def popped (b : PagedBookV3) (next : ℕ) : PagedBookV3 :=
  (b.modifyPage 0 fun page => { page with freeHead := next }).modifyPage 0
    fun page => { page with freeCount := b.freeCount - 1 }

theorem node_bumped {j : ℕ} : (bumped b).node j = b.node j := node_modifyPage fun _ => rfl

theorem node_popped {next j : ℕ} : (popped b next).node j = b.node j := by
  rw [popped, node_modifyPage, node_modifyPage] <;> exact fun _ => rfl

theorem freeHead_eq_none_iff (L : Layout b forest free loose) : b.freeHead = NONE ↔ free = [] := by
  constructor
  · intro h
    exact (h ▸ L.linked).eq_nil
  · rintro rfl
    exact L.linked

theorem allocate_nil (L : Layout b forest [] loose) : PagedBookV3.allocate b =
    if bookSlotsPerSide ≤ b.bumpIndex then .error (.custom .v3BookFull) b
    else .ok b.bumpIndex (bumped b) := by
  rw [PagedBookV3.allocate, run_get_bind, if_pos (L.freeHead_eq_none_iff.2 rfl)]
  split
  · rfl
  · rfl

theorem allocate_cons {rest : List ℕ} (L : Layout b forest (i :: rest) loose) :
    ∃ next, b.FreeNext i next ∧ Linked b.FreeNext NONE next rest ∧ b.freeHead = i ∧
      PagedBookV3.allocate b = .ok i (popped b next) := by
  obtain ⟨rfl, -, next, hn, hre⟩ := L.linked
  have hlt : b.freeHead < bookSlotsPerSide := L.lt_slots (by simp)
  have hs : b.freeHead ≠ NONE := mt L.freeHead_eq_none_iff.1 (by simp)
  refine ⟨next, hn, hre, rfl, ?_⟩
  have hr : reading (·.nextFree b.freeHead) b = .ok next b :=
    run_reading_of_ok (nextFree_eq_ok hlt hn)
  rw [PagedBookV3.allocate, run_get_bind, if_neg hs, run_bind_of_ok hr, if_neg (by simp [L.count])]
  rfl

theorem allocate (L : Layout b forest free loose) (h : PagedBookV3.allocate b = .ok i b') :
    ∃ free', Layout b' forest free' (i :: loose) ∧ ∀ j, b'.node j = b.node j := by
  cases free with
  | nil =>
    rw [L.allocate_nil] at h
    split_ifs at h with hf
    simp only [EStateM.Result.ok.injEq] at h
    obtain ⟨rfl, rfl⟩ := h
    refine ⟨[], ⟨L.root, fun k t ht => (L.stores k t ht).congr fun j _ => node_bumped, L.wf,
      L.linked, L.count, Nat.lt_of_not_le hf, ?_⟩, fun _ => node_bumped⟩
    have hp := L.perm
    simp only [nil_append] at hp ⊢
    rw [show (bumped b).bumpIndex = b.bumpIndex + 1 from rfl, range_succ]
    exact perm_middle.trans ((hp.cons _).trans (perm_append_singleton _ _).symm)
  | cons head rest =>
    obtain ⟨next, hn, hr, -, hrun⟩ := L.allocate_cons
    simp only [hrun, EStateM.Result.ok.injEq] at h
    obtain ⟨rfl, rfl⟩ := h
    refine ⟨rest, ⟨L.root, fun k t ht => (L.stores k t ht).congr fun j _ => node_popped, L.wf, ?_,
      ?_, L.bump_le, ?_⟩, fun _ => node_popped⟩
    · refine hr.congr fun j _ k hk => ?_
      rwa [FreeNext, node_popped]
    · change b.freeCount - 1 = rest.length
      rw [L.count, length_cons, Nat.add_sub_cancel]
    · exact (perm_middle.append_left _).trans L.perm

/-- The book after a slot has been pushed on the free list. -/
def released (b : PagedBookV3) (i : ℕ) : PagedBookV3 :=
  ((b.write i (freeNode b.freeHead)).modifyPage 0
    fun page => { page with freeHead := i }).modifyPage 0
      fun page => { page with freeCount := b.freeCount + 1 }

theorem node_released {j : ℕ} :
    (released b i).node j = if j = i then freeNode b.freeHead else b.node j := by
  rw [released, node_modifyPage, node_modifyPage, node_write] <;> exact fun _ => rfl

theorem root_released (k : TreeKind) : (released b i).root k = b.root k := by
  rw [← root_write (b := b) k]
  cases k <;> rfl

@[simp] theorem bumpIndex_released : (released b i).bumpIndex = b.bumpIndex := bumpIndex_write

theorem run_recycle (hi : i < b.bumpIndex) (hlt : i < bookSlotsPerSide)
    (hn : b.node i ≠ .uninitialized) (hc : b.freeCount + 1 < 2 ^ 32) :
    PagedBookV3.recycle i b = .ok () (released b i) := by
  have hp : putNodeBytes i (freeNode b.freeHead) b = .ok () (b.write i (freeNode b.freeHead)) :=
    run_putNodeBytes.2 ⟨hlt, rfl⟩
  have ht : (do
      putNodeBytes i (if b.freeHead = NONE then .lastFree else .free b.freeHead)
      setFreeHead i
      if b.freeCount + 1 < 2 ^ 32 then setFreeCount (b.freeCount + 1) else throw bundleError
      : BookM Unit) b = .ok () (released b i) := by
    refine run_bind_eq_ok.2 ⟨_, _, hp, run_bind_eq_ok.2 ⟨(), _, run_modify_eq_ok.2 rfl, ?_⟩⟩
    rw [if_pos hc]
    exact run_modify_eq_ok.2 rfl
  refine run_bind_eq_ok.2 ⟨b, b, by simp, ?_⟩
  rw [if_neg (not_le.2 hi)]
  refine run_bind_eq_ok.2 ⟨b.node i, b, by simp [nodeBytes_eq_ok, hlt], ?_⟩
  cases h : b.node i with
  | uninitialized => exact absurd h hn
  | inner | leaf | free | lastFree => exact ht

theorem recycle (L : Layout b forest free (i :: loose)) (hn : b.node i ≠ .uninitialized) :
    PagedBookV3.recycle i b = .ok () (released b i) ∧
      Layout (released b i) forest (i :: free) loose := by
  have hmem : i ∈ forestHandles forest ++ (free ++ i :: loose) := by simp
  have hlen : free.length < bookSlotsPerSide := by
    have hp := L.perm.length_eq
    have := L.bump_le
    simp only [length_append, length_cons, length_range] at hp
    omega
  have hne : i ≠ NONE := by
    have := L.lt_slots hmem
    unfold bookSlotsPerSide at this
    unfold NONE
    omega
  have hf : i ∉ free := by
    have hnd := (nodup_append.1 L.nodup).2.1
    exact fun h => disjoint_of_nodup_append hnd h (by simp)
  refine ⟨run_recycle (L.lt_bump hmem) (L.lt_slots hmem) hn ?_, ?_⟩
  · rw [L.count]
    unfold bookSlotsPerSide at hlen
    omega
  · refine ⟨fun k => by rw [root_released, L.root], ?_, L.wf, ?_, ?_, ?_, ?_⟩
    · intro k t ht
      refine (L.stores k t ht).congr fun j hj => ?_
      rw [node_released, if_neg]
      rintro rfl
      exact L.tree_not_free (k := k) (i := j) (by rw [ht]; exact hj) (by simp)
    · refine ⟨rfl, hne, b.freeHead, by rw [FreeNext, node_released, if_pos rfl], ?_⟩
      refine L.linked.congr fun j hj next hnext => ?_
      rw [FreeNext, node_released, if_neg]
      · exact hnext
      · rintro rfl; exact hf hj
    · exact congrArg (· + 1) L.count
    · rw [bumpIndex_released]; exact L.bump_le
    · rw [bumpIndex_released]
      refine Perm.trans ?_ L.perm
      exact perm_middle.symm.append_left _

end Layout

end PagedBookV3

end Equinox
