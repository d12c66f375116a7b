import Equinox.CritBit.Context
import Equinox.Foundation.Linked

/-! # Heaps of crit-bit trees

Several trees and one free list share an array of slots. A slot is handed out
from the free list or, when that is empty, from a cursor above which no slot was
ever used. A layout names the trees, the free slots and the loose slots of a
heap; loose slots are those an operation has taken out and not yet linked.
-/

namespace CritBit

open Foundation Function List

/-- What one slot holds. -/
inductive Slot (K V E : Type*) where
  | unused
  | free (next : ℕ)
  | cell (content : Cell K V E)

structure Heap (ι K V E : Type*) where
  slot : ℕ → Slot K V E
  root : ι → ℕ
  freeHead : ℕ
  freeCount : ℕ
  bump : ℕ

/-- How the values of a heap are keyed and measured, and which handles it has. -/
structure Scheme (K V E : Type*) where
  key : V → K
  due : V → E
  nil : ℕ
  capacity : ℕ
  capacity_le : capacity ≤ nil

variable {ι K V E : Type*}

namespace Heap

def Holds (h : Heap ι K V E) (i : ℕ) (c : Cell K V E) : Prop := h.slot i = .cell c

/-- A free slot and the one after it in the free list. -/
def Next (h : Heap ι K V E) (i next : ℕ) : Prop := h.slot i = .free next

def write (h : Heap ι K V E) (i : ℕ) (s : Slot K V E) : Heap ι K V E :=
  { h with slot := update h.slot i s }

def withRoot [DecidableEq ι] (h : Heap ι K V E) (k : ι) (value : ℕ) : Heap ι K V E :=
  { h with root := update h.root k value }

/-- The heap after the next unused slot has been handed out. -/
def bumped (h : Heap ι K V E) : Heap ι K V E := { h with bump := h.bump + 1 }

/-- The heap after the first free slot has been handed out. -/
def popped (h : Heap ι K V E) (next : ℕ) : Heap ι K V E :=
  { h with freeHead := next, freeCount := h.freeCount - 1 }

def pushed (h : Heap ι K V E) (i : ℕ) : Heap ι K V E :=
  { h.write i (.free h.freeHead) with freeHead := i, freeCount := h.freeCount + 1 }

/-- Two heaps that differ in some slots at most. -/
structure SameOff (hs : List ℕ) (h h' : Heap ι K V E) : Prop where
  slot : ∀ i ∉ hs, h'.slot i = h.slot i
  root : h'.root = h.root
  freeHead : h'.freeHead = h.freeHead
  freeCount : h'.freeCount = h.freeCount
  bump : h'.bump = h.bump

variable {h h' h'' : Heap ι K V E} {hs hs' : List ℕ} {i j : ℕ}

theorem SameOff.refl (hs : List ℕ) (h : Heap ι K V E) : SameOff hs h h :=
  ⟨fun _ _ => rfl, rfl, rfl, rfl, rfl⟩

theorem SameOff.trans (h₁ : SameOff hs h h') (h₂ : SameOff hs h' h'') : SameOff hs h h'' where
  slot i hi := (h₂.slot i hi).trans (h₁.slot i hi)
  root := h₂.root.trans h₁.root
  freeHead := h₂.freeHead.trans h₁.freeHead
  freeCount := h₂.freeCount.trans h₁.freeCount
  bump := h₂.bump.trans h₁.bump

theorem SameOff.mono (ho : SameOff hs h h') (hsub : ∀ i ∈ hs, i ∈ hs') : SameOff hs' h h' :=
  { ho with slot := fun i hi => ho.slot i fun hm => hi (hsub i hm) }

theorem sameOff_write (h : Heap ι K V E) (i : ℕ) (s : Slot K V E) :
    SameOff [i] h (h.write i s) := by
  refine ⟨fun j hj => ?_, rfl, rfl, rfl, rfl⟩
  exact update_of_ne (by simpa using hj) _ _

@[simp] theorem slot_write_self {s : Slot K V E} : (h.write i s).slot i = s := update_self ..

theorem slot_write_of_ne {s : Slot K V E} (hij : j ≠ i) : (h.write i s).slot j = h.slot j :=
  update_of_ne hij _ _

end Heap

/-! ## Stored trees -/

def rootOf (nil : ℕ) (o : Option (Tree K V)) : ℕ := o.elim nil Tree.handle

def handlesOf (o : Option (Tree K V)) : List ℕ := o.elim [] Tree.handles

def leavesOf (o : Option (Tree K V)) : List (ℕ × V) := o.elim [] Tree.leaves

@[simp] theorem rootOf_some {nil : ℕ} {t : Tree K V} : rootOf nil (some t) = t.handle := rfl

@[simp] theorem handlesOf_none : handlesOf (none : Option (Tree K V)) = [] := rfl

@[simp] theorem handlesOf_some {t : Tree K V} : handlesOf (some t) = t.handles := rfl

@[simp] theorem leavesOf_none : leavesOf (none : Option (Tree K V)) = [] := rfl

@[simp] theorem leavesOf_some {t : Tree K V} : leavesOf (some t) = t.leaves := rfl

theorem mem_handlesOf {o : Option (Tree K V)} {x : ℕ × V} (hx : x ∈ leavesOf o) :
    x.1 ∈ handlesOf o := by
  cases o with
  | none => simp [leavesOf] at hx
  | some t => exact Tree.leaf_handle_mem hx

theorem exists_plug_of_mem_leavesOf {o : Option (Tree K V)} {i : ℕ} {v : V}
    (hx : (i, v) ∈ leavesOf o) : ∃ fs, o = some (plug fs (.leaf i v)) := by
  cases o with
  | none => simp [leavesOf] at hx
  | some t =>
    obtain ⟨fs, hfs⟩ := exists_plug_of_mem_leaves (show (i, v) ∈ t.leaves from hx)
    exact ⟨fs, congrArg some hfs⟩

theorem sum_count_update [Fintype ι] [DecidableEq ι] (forest : ι → Option (Tree K V)) (k : ι)
    (o : Option (Tree K V)) (i : ℕ) :
    ∑ j, (handlesOf (update forest k o j)).count i + (handlesOf (forest k)).count i =
      ∑ j, (handlesOf (forest j)).count i + (handlesOf o).count i := by
  have hold := Finset.add_sum_erase Finset.univ (fun j => (handlesOf (forest j)).count i)
    (Finset.mem_univ k)
  have hn := Finset.add_sum_erase Finset.univ
    (fun j => (handlesOf (update forest k o j)).count i) (Finset.mem_univ k)
  have hr : ∑ j ∈ Finset.univ.erase k, (handlesOf (update forest k o j)).count i =
      ∑ j ∈ Finset.univ.erase k, (handlesOf (forest j)).count i := by
    refine Finset.sum_congr rfl fun j hj => ?_
    rw [update_of_ne (Finset.ne_of_mem_erase hj)]
  rw [update_self, hr] at hn
  omega

namespace Scheme

variable [LinearOrder E] {s : Scheme K V E} {h h' : Heap ι K V E} {t : Tree K V}
  {f : Frame K V} {fs : List (Frame K V)} {hs : List ℕ} {i : ℕ}

def Stores (s : Scheme K V E) (h : Heap ι K V E) (t : Tree K V) : Prop := t.Stored s.due h.Holds

def StoresContext (s : Scheme K V E) (h : Heap ι K V E) (fs : List (Frame K V)) (hole : ℕ) :
    Prop :=
  ContextStored s.due h.Holds fs hole

theorem Stores.congr (hst : s.Stores h t) (hs : ∀ i ∈ t.handles, h'.slot i = h.slot i) :
    s.Stores h' t := Tree.Stored.frame hst fun i hi _ hc => (hs i hi).trans hc

theorem Stores.off (hst : s.Stores h t) (ho : h.SameOff hs h') (hd : ∀ i ∈ t.handles, i ∉ hs) :
    s.Stores h' t := hst.congr fun i hi => ho.slot i (hd i hi)

theorem StoresContext.congr {hole : ℕ} (hst : s.StoresContext h fs hole)
    (hs : ∀ i ∈ contextHandles fs, h'.slot i = h.slot i) : s.StoresContext h' fs hole :=
  ContextStored.frame hst fun i hi _ hc => (hs i hi).trans hc

theorem StoresContext.off {hole : ℕ} (hst : s.StoresContext h fs hole) (ho : h.SameOff hs h')
    (hd : ∀ i ∈ contextHandles fs, i ∉ hs) : s.StoresContext h' fs hole :=
  hst.congr fun i hi => ho.slot i (hd i hi)

def cellAround (s : Scheme K V E) (f : Frame K V) (t : Tree K V) : Cell K V E :=
  .inner f.prefixLen f.rep (sided f.branch t.handle f.sibling.handle)
    (sided f.branch (t.least s.due) (f.sibling.least s.due))

theorem Stores.fill (ht : s.Stores h t) (hs : s.Stores h f.sibling) (hnt : f.handle ∉ t.handles)
    (hns : f.handle ∉ f.sibling.handles) :
    s.Stores (h.write f.handle (.cell (s.cellAround f t))) (f.fill t) := by
  have ho := Heap.sameOff_write h f.handle (.cell (s.cellAround f t))
  have hout {l : List ℕ} (hl : f.handle ∉ l) : ∀ i ∈ l, i ∉ [f.handle] := by
    intro i hi hm
    rw [mem_singleton] at hm
    exact hl (hm ▸ hi)
  exact Frame.stored_fill_iff.2 ⟨Heap.slot_write_self, ht.off ho (hout hnt), hs.off ho (hout hns)⟩

theorem Stores.holds_of_plug {v : V} (hst : s.Stores h t) (hp : t = plug fs (.leaf i v)) :
    h.slot i = .cell (.leaf v) := by
  subst hp
  exact (contextStored_of_stored hst).1

/-! ## Layouts -/

variable [LinearOrder K] [BitKey K] [Fintype ι]

structure Layout (s : Scheme K V E) (h : Heap ι K V E) (forest : ι → Option (Tree K V))
    (free loose : List ℕ) : Prop where
  root : ∀ k, h.root k = rootOf s.nil (forest k)
  stores : ∀ k, ∀ t ∈ forest k, s.Stores h t
  wf : ∀ k, ∀ t ∈ forest k, t.WF s.key
  linked : Linked h.Next s.nil h.freeHead free
  count : h.freeCount = free.length
  bump_le : h.bump ≤ s.capacity
  /-- Each slot below the cursor has one place, and none above it has any. -/
  once : ∀ i, ∑ k, (handlesOf (forest k)).count i + (free ++ loose).count i =
    if i < h.bump then 1 else 0
  unused : ∀ i, h.bump ≤ i → h.slot i = .unused

namespace Layout

variable {forest : ι → Option (Tree K V)} {free loose loose' : List ℕ} {k : ι}
  {o : Option (Tree K V)} {v : V}

section

variable (L : s.Layout h forest free loose)

include L

theorem lt_bump_iff : i < h.bump ↔ (∃ k, i ∈ handlesOf (forest k)) ∨ i ∈ free ++ loose := by
  have hi := L.once i
  constructor
  · intro hlt
    rw [if_pos hlt] at hi
    by_contra hn
    rw [not_or, not_exists] at hn
    have hsum : ∑ k, (handlesOf (forest k)).count i = 0 :=
      Finset.sum_eq_zero fun k _ => count_eq_zero.2 (hn.1 k)
    rw [hsum, count_eq_zero.2 hn.2] at hi
    exact absurd hi (by decide)
  · intro hmem
    by_contra hge
    rw [if_neg hge, Nat.add_eq_zero_iff, Finset.sum_eq_zero_iff] at hi
    rcases hmem with ⟨k, hk⟩ | hmem
    · exact count_eq_zero.1 (hi.1 k (Finset.mem_univ k)) hk
    · exact count_eq_zero.1 hi.2 hmem

theorem count_tree_le (k : ι) (i : ℕ) :
    (handlesOf (forest k)).count i + (free ++ loose).count i ≤ 1 := by
  have hle := Finset.single_le_sum (f := fun k => (handlesOf (forest k)).count i)
    (fun _ _ => Nat.zero_le _) (Finset.mem_univ k)
  have hi := L.once i
  split_ifs at hi <;> omega

theorem nodup_free : (free ++ loose).Nodup := nodup_iff_count_le_one.2 fun i => by
    have hi := L.once i
    split_ifs at hi <;> omega

theorem nodup (k : ι) :
    (handlesOf (forest k) ++ (free ++ loose)).Nodup := nodup_iff_count_le_one.2 fun i => by
    rw [count_append]
    exact L.count_tree_le k i

theorem lt_bump (hi : i ∈ handlesOf (forest k)) : i < h.bump := L.lt_bump_iff.2 (.inl ⟨k, hi⟩)

theorem lt_bump_of_mem (hi : i ∈ free ++ loose) : i < h.bump := L.lt_bump_iff.2 (.inr hi)

theorem length_le_bump : (free ++ loose).length ≤ h.bump := by
  have hsub : free ++ loose ⊆ range h.bump := fun i hi =>
    mem_range.2 (L.lt_bump_of_mem hi)
  simpa using (subperm_of_subset L.nodup_free hsub).length_le

theorem tree_not_free (hi : i ∈ handlesOf (forest k)) :
    i ∉ free ++ loose := disjoint_of_nodup_append (L.nodup k) hi

theorem apart {k' : ι} (hk : k ≠ k')
    (hi : i ∈ handlesOf (forest k)) : i ∉ handlesOf (forest k') := by
  classical
  intro hi'
  have hs := Finset.add_sum_erase Finset.univ (fun k => (handlesOf (forest k)).count i)
    (Finset.mem_univ k)
  have hle := Finset.single_le_sum (f := fun k => (handlesOf (forest k)).count i)
    (fun _ _ => Nat.zero_le _) (Finset.mem_erase.2 ⟨hk.symm, Finset.mem_univ k'⟩)
  have hpos := count_pos_iff.2 hi
  have hp' := count_pos_iff.2 hi'
  have hsum := L.once i
  split_ifs at hsum <;> omega

theorem freeHead_eq_nil_iff : h.freeHead = s.nil ↔ free = [] := by
  constructor
  · intro hn
    exact (hn ▸ L.linked).eq_nil
  · rintro rfl
    exact L.linked

theorem ne_nil (hi : i < h.bump) : i ≠ s.nil := by
  have := L.bump_le
  have := s.capacity_le
  omega

theorem root_eq_nil_iff : h.root k = s.nil ↔ forest k = none := by
  rw [L.root]
  cases hk : forest k with
  | none => simp [rootOf]
  | some t =>
    have hmem : t.handle ∈ handlesOf (forest k) := by rw [hk]; exact t.handle_mem_handles
    simpa [rootOf] using L.ne_nil (L.lt_bump hmem)

theorem depth_le (ht : forest k = some t) : t.depth ≤ BitKey.width K := (L.wf k t ht).depth_le

theorem slot_leaf (hx : (i, v) ∈ leavesOf (forest k)) : h.slot i = .cell (.leaf v) := by
  obtain ⟨fs, hfs⟩ := exists_plug_of_mem_leavesOf hx
  exact (L.stores k _ hfs).holds_of_plug rfl

theorem perm_loose (hp : loose.Perm loose') :
    s.Layout h forest free loose' :=
  { L with
    once := fun i => by rw [← L.once i, count_append, count_append, hp.count_eq] }

theorem off_loose (ho : h.SameOff hs h')
    (hsub : ∀ i ∈ hs, i ∈ loose) : s.Layout h' forest free loose where
  root k := by rw [ho.root, L.root]
  stores k t ht := by
    refine (L.stores k t ht).off ho fun j hj hm => ?_
    have hjk : j ∈ handlesOf (forest k) := by rw [ht]; exact hj
    exact L.tree_not_free hjk (mem_append_right _ (hsub j hm))
  wf := L.wf
  linked := by
    rw [ho.freeHead]
    refine L.linked.congr fun j hj next hn => ?_
    rw [Heap.Next, ho.slot j fun hm => ?_]
    · exact hn
    · have hone := L.once j
      have hf := count_pos_iff.2 hj
      have hl := count_pos_iff.2 (hsub j hm)
      rw [count_append] at hone
      split_ifs at hone <;> omega
  count := by rw [ho.freeCount, L.count]
  bump_le := by rw [ho.bump]; exact L.bump_le
  once := by rw [ho.bump]; exact L.once
  unused i hi := by
    rw [ho.bump] at hi
    rw [ho.slot i fun hm => ?_, L.unused i hi]
    exact absurd (L.lt_bump_of_mem (mem_append_right _ (hsub i hm))) (not_lt.2 hi)

end

variable [DecidableEq ι]

theorem prune (L : s.Layout h forest free loose) (k : ι) :
    s.Layout (h.withRoot k s.nil) (update forest k none) free (handlesOf (forest k) ++ loose) where
  root j := by
    by_cases hj : j = k
    · subst hj; simp [Heap.withRoot, rootOf]
    · simp [Heap.withRoot, hj, L.root]
  stores j t ht := by
    by_cases hj : j = k
    · subst hj; simp at ht
    · rw [update_of_ne hj] at ht
      exact L.stores j t ht
  wf j t ht := by
    by_cases hj : j = k
    · subst hj; simp at ht
    · rw [update_of_ne hj] at ht
      exact L.wf j t ht
  linked := L.linked
  count := L.count
  bump_le := L.bump_le
  once i := by
    have hsum := sum_count_update forest k none i
    have ho := L.once i
    change _ = if i < h.bump then 1 else 0
    simp only [count_append, handlesOf, Option.elim_none, count_nil] at ho hsum ⊢
    omega
  unused := L.unused

theorem graft (L : s.Layout (h.withRoot k s.nil) forest free (handlesOf o))
    (hn : forest k = none) (hr : h.root k = rootOf s.nil o) (hst : ∀ t ∈ o, s.Stores h t)
    (hwf : ∀ t ∈ o, t.WF s.key) : s.Layout h (update forest k o) free [] where
  root j := by
    by_cases hj : j = k
    · subst hj; simpa using hr
    · have := L.root j
      simpa [Heap.withRoot, hj] using this
  stores j t ht := by
    by_cases hj : j = k
    · subst hj; exact hst t (by simpa using ht)
    · rw [update_of_ne hj] at ht
      exact L.stores j t ht
  wf j t ht := by
    by_cases hj : j = k
    · subst hj; exact hwf t (by simpa using ht)
    · rw [update_of_ne hj] at ht
      exact L.wf j t ht
  linked := L.linked
  count := L.count
  bump_le := L.bump_le
  once i := by
    have hsum := sum_count_update forest k o i
    have ho := L.once i
    change _ = if i < h.bump then 1 else 0 at ho
    simp only [count_append, count_nil, hn] at ho hsum ⊢
    have hnil : (handlesOf (none : Option (Tree K V))).count i = 0 := by simp [handlesOf]
    omega
  unused := L.unused

omit [DecidableEq ι]

theorem bumped (L : s.Layout h forest [] loose) (hlt : h.bump < s.capacity) :
    s.Layout h.bumped forest [] (h.bump :: loose) where
  root := L.root
  stores := L.stores
  wf := L.wf
  linked := L.linked
  count := L.count
  bump_le := hlt
  once i := by
    have ho := L.once i
    change _ = if i < h.bump + 1 then 1 else 0
    simp only [nil_append, count_cons, beq_iff_eq] at ho ⊢
    split_ifs at ho ⊢ <;> omega
  unused i hi := L.unused i (Nat.le_of_succ_le hi)

theorem exists_popped {rest : List ℕ} (L : s.Layout h forest (i :: rest) loose) :
    h.freeHead = i ∧ ∃ next, h.slot i = .free next ∧
      s.Layout (h.popped next) forest rest (i :: loose) := by
  obtain ⟨rfl, -, next, hn, hr⟩ := L.linked
  refine ⟨rfl, next, hn, ⟨L.root, L.stores, L.wf, hr, ?_, L.bump_le, fun j => ?_, L.unused⟩⟩
  · change h.freeCount - 1 = rest.length
    rw [L.count, length_cons, Nat.add_sub_cancel]
  · have ho := L.once j
    change _ = if j < h.bump then 1 else 0
    simp only [count_append, count_cons] at ho ⊢
    omega

theorem pushed (L : s.Layout h forest free (i :: loose)) :
    s.Layout (h.pushed i) forest (i :: free) loose := by
  have hi : i < h.bump := L.lt_bump_of_mem (by simp)
  have hs {j : ℕ} (hj : j ≠ i) : (h.pushed i).slot j = h.slot j := Heap.slot_write_of_ne hj
  refine ⟨L.root, fun k t ht => (L.stores k t ht).congr fun j hj => hs ?_, L.wf, ?_,
    congrArg (· + 1) L.count, L.bump_le, fun j => ?_, fun j hj => ?_⟩
  · rintro rfl
    exact L.tree_not_free (k := k) (by rw [ht]; exact hj) (by simp)
  · refine ⟨rfl, L.ne_nil hi, h.freeHead, Heap.slot_write_self, ?_⟩
    refine L.linked.congr fun j hj next hn => (hs ?_).trans hn
    rintro rfl
    have ho := L.once j
    have hf := count_pos_iff.2 hj
    simp only [count_append, count_cons_self, if_pos hi] at ho
    omega
  · have ho := L.once j
    change _ = if j < h.bump then 1 else 0
    simp only [count_append, count_cons] at ho ⊢
    omega
  · change h.bump ≤ j at hj
    rw [hs (by omega), L.unused j hj]

end Layout

end Scheme

end CritBit
