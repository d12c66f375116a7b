import Equinox.V2.Layouts

/-! # What validation accepts

Validation walks both trees with a stack and then the free list. It accepts an
arena exactly when the arena is laid out as two crit-bit trees with right leaf
counts, a free list and unused slots: the prefixes increase along every branch,
so that neither the stack nor the number of visits can be exceeded.
-/

namespace Equinox.V2

open Foundation CritBit List Nat LeafNode Except
open PagedBookV3 (BookTree Forest)

theorem prefixMatches_iff {a b : Key} {n : ℕ} (hn : n ≤ 128) :
    prefixMatches a b n = true ↔ Agree n a b := by
  have hb (i : ℕ) (hi : i < n) (x : Key) : bit x i = (x.val >>> (128 - n)).testBit (n - 1 - i) := by
    rw [bit, testBit_shiftRight, show 128 - n + (n - 1 - i) = 127 - i by omega]
  simp only [prefixMatches, Bool.or_eq_true, decide_eq_true_eq]
  constructor
  · rintro (rfl | h) i hi
    · omega
    · rw [bit_key, bit_key, hb i hi, hb i hi, h]
  · intro h
    right
    refine eq_of_testBit_eq fun j => ?_
    rcases Nat.lt_or_ge j n with hj | hj
    · have := h (n - 1 - j) (by omega)
      rwa [bit_key, bit_key, hb _ (by omega), hb _ (by omega),
        show n - 1 - (n - 1 - j) = j by omega] at this
    · have hle : 2 ^ 128 ≤ 2 ^ (128 - n + j) := Nat.pow_le_pow_right (by omega) (by omega)
      rw [testBit_shiftRight, testBit_shiftRight,
        testBit_lt_two_pow (a.isLt.trans_le hle), testBit_lt_two_pow (b.isLt.trans_le hle)]

namespace Arena

variable {a : Arena} {forest : Forest} {free reachable : List ℕ} {tree : TreeKind} {t : BookTree}
  {i fuel leaves n : ℕ} {pending : Pending} {stack : List Pending} {ts : List BookTree}

/-! ## Subtrees on the stack -/

def rootNode : BookTree → Node
  | .leaf _ leaf => .leaf leaf
  | .inner _ p rep child =>
    .inner ⟨p, rep, fun c => (child c).handle, fun c => (child c).least expiryOf⟩

theorem tag_handle (h : arenaScheme.Stores a.heap t) : a.tag t.handle = .ok (rootNode t) := by
  cases t with
  | leaf => exact tag_leaf h
  | inner => exact tag_inner h

theorem nodeKey_rootNode (t : BookTree) : nodeKey (rootNode t) = .ok (t.top key) := by
  cases t <;> rfl

/-- An entry is for a root, or for a child of a node that was checked. -/
def Pending.Placed (a : Arena) (pending : Pending) : Prop :=
  pending.parent = NONE ∨ ∃ node, a.inner pending.parent = .ok node ∧ node.prefixLen < 128

/-- The tree of an entry continues the prefix of its parent. -/
def Pending.Continued (a : Arena) (pending : Pending) (t : BookTree) : Prop :=
  pending.parent = NONE ∨ ∃ node, a.inner pending.parent = .ok node ∧ node.prefixLen < 128 ∧
    t.Below key node.prefixLen node.key pending.expectedBranch

theorem Pending.Continued.placed (h : pending.Continued a t) : pending.Placed a :=
  h.imp_right fun ⟨node, hn, hlt, _⟩ => ⟨node, hn, hlt⟩

theorem checkParent_iff (hp : pending.Placed a) {u : Unit} :
    a.checkParent pending (rootNode t) (t.top key) = .ok u ↔ pending.Continued a t := by
  by_cases hn : pending.parent = NONE
  · simp [checkParent, Pending.Continued, hn]
  · obtain ⟨node, hno, hlt⟩ := hp.resolve_left hn
    cases t with
    | leaf =>
      simp [checkParent, Pending.Continued, Tree.Below, hn, hno, rootNode, hlt, ok_bind,
        prefixMatches_iff hlt.le]
    | inner h p rep child =>
      simp only [checkParent, hn, if_false, hno, ok_bind, rootNode, ok_rules, Pending.Continued,
        Tree.Below, false_or, ok.injEq, exists_eq_left', hlt, true_and,
        prefixMatches_iff hlt.le, bit_key]
      rw [require_eq_ok, and_assoc]
      refine and_congr_right fun _ => and_congr_right fun _ => ⟨?_, fun ha => ha _ _ _ _ rfl⟩
      rintro hlt' _ _ _ _ ⟨⟩
      exact hlt'

structure Planted (a : Arena) (pending : Pending) (t : BookTree) : Prop where
  handle : t.handle = pending.handle
  stores : arenaScheme.Stores a.heap t
  wf : t.WF key
  continued : pending.Continued a t

def allHandles (ts : List BookTree) : List ℕ := ts.flatMap Tree.handles

def allLeaves (ts : List BookTree) : List (ℕ × LeafNode) := ts.flatMap Tree.leaves

theorem allHandles_inner (h p : ℕ) (rep : Key) (child : Bool → BookTree) (ts : List BookTree) :
    (h :: allHandles (child true :: child false :: ts)).Perm
      (allHandles (.inner h p rep child :: ts)) := by
  simp only [allHandles, flatMap_cons, Tree.handles, cons_append, ← append_assoc]
  exact ((perm_append_comm.append_right _).cons _)

theorem length_allLeaves_inner {h p : ℕ} {rep : Key} (child : Bool → BookTree) :
    (allLeaves (child true :: child false :: ts)).length =
      (allLeaves (.inner h p rep child :: ts)).length := by
  simp only [allLeaves, flatMap_cons, Tree.leaves, length_append]
  omega

theorem checkInner_of_stores {h p : ℕ} {rep : Key} {child : Bool → BookTree}
    (hst : arenaScheme.Stores a.heap (.inner h p rep child)) (hp : p < 128) :
    a.checkInner ⟨p, rep, fun c => (child c).handle, fun c => (child c).least expiryOf⟩ =
      .ok () := by
  simp only [checkInner, ok_rules]
  exact ⟨⟨hp, handle_ne_none (hst.2 false), handle_ne_none (hst.2 true)⟩, _,
    subtreeExpiry_eq (hst.2 false), _, subtreeExpiry_eq (hst.2 true), require_eq_ok.2 ⟨rfl, rfl⟩⟩

theorem stores_of_checkInner {node : InnerNode} {child : Bool → BookTree}
    (ht : a.tag i = .ok (.inner node)) (hch : a.checkInner node = .ok ())
    (hh : ∀ c, (child c).handle = node.children c)
    (hst : ∀ c, arenaScheme.Stores a.heap (child c)) :
    arenaScheme.Stores a.heap (.inner i node.prefixLen node.key child) ∧
      rootNode (.inner i node.prefixLen node.key child) = .inner node ∧ node.prefixLen < 128 := by
  obtain ⟨p, rep, children, cache⟩ := node
  obtain rfl : (fun c => (child c).handle) = children := funext hh
  simp only [checkInner, ok_rules] at hch
  obtain ⟨⟨hp, -, -⟩, left, hle, right, hri, hc⟩ := hch
  obtain ⟨hl, hr⟩ := require_eq_ok.1 hc
  have hc : cache = fun c => (child c).least expiryOf := by
    funext c
    cases c
    · rw [hl]
      exact ok.inj (hle.symm.trans (subtreeExpiry_eq (hst false)))
    · rw [hr]
      exact ok.inj (hri.symm.trans (subtreeExpiry_eq (hst true)))
  subst hc
  exact ⟨⟨slot_eq_cell.2 ht, hst⟩, rfl, hp⟩

/-! ## The walk over the trees -/

/-- A walk that returns has found a tree for every entry. -/
theorem planted_of_validateFrom {reached : List ℕ} (hbu : a.bumpIndex ≤ arenaCapacity)
    (hs : ∀ p ∈ stack, p.Placed a)
    (h : a.validateFrom fuel stack reachable leaves = .ok (n, reached)) :
    ∃ ts, Forall₂ (Planted a) stack ts ∧ n = leaves + (allLeaves ts).length ∧
      reached.Perm (allHandles ts ++ reachable) ∧ (reachable.Nodup → reached.Nodup) ∧
      ∀ i ∈ allHandles ts, i < a.bumpIndex := by
  induction fuel generalizing stack reachable leaves with
  | zero =>
    cases stack with
    | nil =>
      obtain ⟨rfl, rfl⟩ := Prod.mk.inj (pure_eq_ok.1 h)
      exact ⟨[], .nil, rfl, .refl _, id, by simp [allHandles]⟩
    | cons => simp [validateFrom] at h
  | succ fuel ih =>
    cases stack with
    | nil =>
      obtain ⟨rfl, rfl⟩ := Prod.mk.inj (pure_eq_ok.1 h)
      exact ⟨[], .nil, rfl, .refl _, id, by simp [allHandles]⟩
    | cons pending stack =>
      simp only [validateFrom, ok_rules] at h
      obtain ⟨⟨hlt, hf⟩, node, ht, key, hk, ⟨⟩, hp, h⟩ := h
      obtain ⟨hpl, hs⟩ := forall_mem_cons.1 hs
      cases node with
      | uninitialized | free | lastFree => simp [nodeKey] at hk
      | leaf leaf =>
        obtain rfl : leaf.key = key := by simpa [nodeKey] using hk
        obtain ⟨ts, hts, rfl, hpe, hn, hl⟩ := ih hs h
        have hco := (checkParent_iff (t := .leaf pending.handle leaf) hpl).1 hp
        refine ⟨.leaf pending.handle leaf :: ts,
          .cons ⟨rfl, slot_eq_cell.2 ht, trivial, hco⟩ hts, ?_, ?_, ?_, ?_⟩
        · simp only [allLeaves, flatMap_cons, Tree.leaves, length_append, length_singleton]
          omega
        · exact hpe.trans perm_middle
        · exact fun hnd => hn (nodup_cons.2 ⟨hf, hnd⟩)
        · intro i hi
          rcases mem_cons.1 (show i ∈ pending.handle :: allHandles ts from hi) with rfl | hi
          · exact hlt
          · exact hl i hi
      | inner node =>
        obtain rfl : node.key = key := by simpa [nodeKey] using hk
        simp only [ok_rules] at h
        obtain ⟨⟨⟩, hch, -, h⟩ := h
        have hno : pending.handle ≠ NONE := by
          unfold arenaCapacity at hbu
          unfold NONE
          omega
        have hin : a.inner pending.handle = .ok node := by
          rw [Arena.inner, ht]
          rfl
        have hlen : node.prefixLen < 128 := by
          simp only [checkInner, ok_rules] at hch
          exact hch.1.1
        have hp' (h c) : Pending.Placed a ⟨h, pending.handle, c⟩ := .inr ⟨node, hin, hlen⟩
        obtain ⟨ts', hts', rfl, hpe, hn, hl⟩ := ih
          (forall_mem_cons.2 ⟨hp' _ _, forall_mem_cons.2 ⟨hp' _ _, hs⟩⟩) h
        obtain ⟨right, _, hr, ⟨left, ts, hle, hts, rfl⟩, rfl⟩ := by
          simpa only [forall₂_cons_left_iff] using hts'
        let child : Bool → BookTree := sided true right left
        have hc (c : Bool) : Planted a ⟨node.children c, pending.handle, c⟩ (child c) := by
          cases c
          · exact hle
          · exact hr
        obtain ⟨hst, hro, -⟩ := stores_of_checkInner ht hch (fun c => (hc c).handle)
          fun c => (hc c).stores
        have hbe (c : Bool) : (child c).Below key node.prefixLen node.key c := by
          obtain ⟨node', hn', -, hb⟩ := (hc c).continued.resolve_left hno
          obtain rfl : node = node' := ok.inj (hin.symm.trans hn')
          exact hb
        have hwf : (Tree.inner pending.handle node.prefixLen node.key child).WF key :=
          Tree.wf_inner_iff.2 ⟨hlen, fun c => ⟨(hc c).wf, hbe c⟩⟩
        rw [← hro] at hp
        have hco := (checkParent_iff
          (t := .inner pending.handle node.prefixLen node.key child) hpl).1 hp
        have hsp := allHandles_inner pending.handle node.prefixLen node.key child ts
        refine ⟨.inner pending.handle node.prefixLen node.key child :: ts,
          .cons ⟨rfl, hst, hwf, hco⟩ hts, ?_, ?_, ?_, ?_⟩
        · exact congrArg (leaves + ·) (length_allLeaves_inner child)
        · exact (hpe.trans perm_middle).trans (hsp.append_right _)
        · exact fun hnd => hn (nodup_cons.2 ⟨hf, hnd⟩)
        · intro i hi
          rcases mem_cons.1 (hsp.mem_iff.2 hi) with rfl | hi
          · exact hlt
          · exact hl i hi

/-- Each tree fits above the entries that lie below it on the stack. -/
def Fits : List BookTree → Prop
  | [] => True
  | t :: ts => t.depth + ts.length ≤ 128 ∧ Fits ts

/-- A walk over stored trees returns. -/
theorem validateFrom_of_planted (reachable : List ℕ) (leaves : ℕ)
    (hts : Forall₂ (Planted a) stack ts)
    (hl : ∀ i ∈ allHandles ts, i < a.bumpIndex) (hnd : (allHandles ts ++ reachable).Nodup)
    (hfu : (allHandles ts).length ≤ fuel) (hf : Fits ts) :
    ∃ reached, a.validateFrom fuel stack reachable leaves =
      .ok (leaves + (allLeaves ts).length, reached) ∧
      reached.Perm (allHandles ts ++ reachable) := by
  induction fuel generalizing stack ts reachable leaves with
  | zero =>
    cases hts with
    | nil => exact ⟨reachable, rfl, .refl _⟩
    | @cons _ t _ ts =>
      have := length_pos_of_mem (mem_append_left (allHandles ts) t.handle_mem_handles)
      simp only [allHandles, flatMap_cons] at hfu this
      omega
  | succ fuel ih =>
    cases hts with
    | nil => exact ⟨reachable, rfl, .refl _⟩
    | @cons pending t stack ts hp hts =>
      obtain ⟨hh, hst, hwf, hc⟩ := hp
      have hmem : pending.handle ∈ allHandles (t :: ts) := by
        rw [← hh]
        exact mem_append_left _ t.handle_mem_handles
      have hfr : pending.handle ∉ reachable := disjoint_of_nodup_append hnd hmem
      have ht := tag_handle hst
      rw [hh] at ht
      have hr : require (pending.handle < a.bumpIndex ∧ pending.handle ∉ reachable)
          BookError.integrity = .ok () := require_eq_ok.2 ⟨hl _ hmem, hfr⟩
      have hch := (checkParent_iff (u := ()) hc.placed).2 hc
      simp only [validateFrom, hr, ht, nodeKey_rootNode, hch, ok_bind]
      cases t with
      | leaf j leaf =>
        obtain rfl : j = pending.handle := hh
        have hnd' : (allHandles ts ++ pending.handle :: reachable).Nodup :=
          perm_middle.nodup_iff.2 hnd
        obtain ⟨reached, hok, hpe⟩ := ih (pending.handle :: reachable) (leaves + 1) hts
          (fun i hi => hl i (mem_cons_of_mem _ hi)) hnd'
          (by simpa [allHandles, Tree.handles] using hfu) hf.2
        refine ⟨reached, ?_, hpe.trans perm_middle⟩
        rw [rootNode, hok]
        simp only [allLeaves, flatMap_cons, Tree.leaves, length_append, length_singleton]
        rw [Nat.add_assoc]
      | inner j p rep child =>
        obtain rfl : j = pending.handle := hh
        have hlen : p < 128 := hwf.1
        have hin : a.inner pending.handle = .ok ⟨p, rep, fun c => (child c).handle,
            fun c => (child c).least expiryOf⟩ := inner_eq_ok.2 hst.1
        have hpl (c : Bool) :
            Planted a ⟨(child c).handle, pending.handle, c⟩ (child c) :=
          ⟨rfl, hst.2 c, hwf.2.1 c, .inr ⟨_, hin, hlen, ((Tree.wf_inner_iff.1 hwf).2 c).2⟩⟩
        have hs := allHandles_inner pending.handle p rep child ts
        have hd (c : Bool) := Tree.depth_child_lt pending.handle p rep child c
        have hro := hf.1
        have hle : stack.length = ts.length := hts.length_eq
        have hnd' : (allHandles (child true :: child false :: ts) ++
            pending.handle :: reachable).Nodup :=
          perm_middle.nodup_iff.2 ((hs.append_right _).nodup_iff.2 hnd)
        obtain ⟨reached, hok, hpe⟩ := ih (pending.handle :: reachable) leaves
          (.cons (hpl true) (.cons (hpl false) hts))
          (fun i hi => hl i (hs.mem_iff.1 (mem_cons_of_mem _ hi))) hnd'
          (by have := hs.length_eq; simp only [length_cons] at this; omega)
          ⟨by have := hd true; simp only [length_cons]; omega, by have := hd false; omega, hf.2⟩
        refine ⟨reached, ?_, (hpe.trans perm_middle).trans (hs.append_right _)⟩
        have hsta : require (stack.length + 2 ≤ 129) BookError.integrity = .ok () :=
          require_eq_ok.2 (by have := hd true; omega)
        rw [length_allLeaves_inner] at hok
        rw [rootNode]
        simp only [checkInner_of_stores hst hlen, hsta, ok_bind]
        exact hok

variable {o : Option BookTree} {reached : List ℕ}

theorem exists_tree_of_validateTree (hb : a.bumpIndex ≤ arenaCapacity)
    (h : a.validateTree tree reachable = .ok (n, reached)) :
    ∃ o, a.roots tree = rootOf NONE o ∧ (∀ t ∈ o, arenaScheme.Stores a.heap t ∧
      t.WF key) ∧ n = (leavesOf o).length ∧ reached.Perm (handlesOf o ++ reachable) ∧
      (reachable.Nodup → reached.Nodup) ∧ ∀ i ∈ handlesOf o, i < a.bumpIndex := by
  unfold validateTree at h
  split_ifs at h with hr
  · obtain ⟨rfl, rfl⟩ := Prod.mk.inj (pure_eq_ok.1 h)
    exact ⟨none, hr, by simp, rfl, .refl _, id, by simp [handlesOf]⟩
  · obtain ⟨ts, hts, hn, hp, hno, hl⟩ := planted_of_validateFrom hb
      (forall_mem_singleton.2 (.inl rfl)) h
    obtain ⟨t, _, ht, hnil, rfl⟩ := forall₂_cons_left_iff.1 hts
    obtain rfl := forall₂_nil_left_iff.1 hnil
    simp only [allHandles, allLeaves, flatMap_cons, flatMap_nil, append_nil,
      Nat.zero_add] at hn hp hl
    refine ⟨some t, ht.handle.symm, ?_, hn, hp, hno, hl⟩
    rintro _ ⟨⟩
    exact ⟨ht.stores, ht.wf⟩

theorem validateTree_of_root (reachable : List ℕ) (hb : a.bumpIndex ≤ arenaCapacity)
    (hr : a.roots tree = rootOf NONE o)
    (hst : ∀ t ∈ o, arenaScheme.Stores a.heap t) (hwf : ∀ t ∈ o, t.WF key)
    (hl : ∀ i ∈ handlesOf o, i < a.bumpIndex) (hnd : (handlesOf o ++ reachable).Nodup) :
    ∃ reached, a.validateTree tree reachable = .ok ((leavesOf o).length, reached) ∧
      reached.Perm (handlesOf o ++ reachable) := by
  cases o with
  | none =>
    have hn : a.roots tree = NONE := hr
    exact ⟨reachable, by rw [validateTree, if_pos hn]; rfl, .refl _⟩
  | some t =>
    rw [rootOf_some] at hr
    rw [handlesOf_some] at hl hnd
    have hsub : t.handles ⊆ range arenaCapacity := fun i hi =>
      mem_range.2 ((hl i hi).trans_le hb)
    have hle : t.handles.length ≤ arenaCapacity := by
      simpa using (subperm_of_subset (nodup_append.1 hnd).1 hsub).length_le
    have hpl : Planted a ⟨t.handle, NONE, false⟩ t := ⟨rfl, hst t rfl, hwf t rfl, .inl rfl⟩
    obtain ⟨reached, hok, hp⟩ := validateFrom_of_planted reachable 0
      (.cons hpl .nil) (by simpa [allHandles] using hl) (by simpa [allHandles] using hnd)
      (by simpa [allHandles] using le_succ_of_le hle) ⟨(hwf t rfl).depth_le, trivial⟩
    refine ⟨reached, ?_, by simpa [allHandles] using hp⟩
    rw [validateTree, if_neg (hr.trans_ne (handle_ne_none (hst t rfl))), hr, hok]
    simp [allLeaves]

/-! ## The free list -/

variable {cursor : ℕ} {listed : List ℕ}

theorem linked_of_validateFree (h : a.validateFree reachable fuel cursor listed = .ok free) :
    ∃ l, Linked a.heap.Next NONE cursor l ∧ free.Perm (l ++ listed) ∧
      (listed.Nodup → free.Nodup) ∧ ∀ i ∈ l, i < a.bumpIndex ∧ i ∉ reachable := by
  induction fuel generalizing cursor listed with
  | zero => simp [validateFree] at h
  | succ fuel ih =>
    unfold validateFree at h
    split_ifs at h with hn
    · obtain rfl := pure_eq_ok.1 h
      exact ⟨[], hn, .refl _, id, by simp⟩
    · simp only [ok_rules] at h
      obtain ⟨⟨hlt, hf, hr⟩, next, hne, h⟩ := h
      obtain ⟨l, hl, hp, hno, hlow⟩ := ih h
      refine ⟨cursor :: l, ⟨rfl, hn, next, nextFree_eq_ok.1 hne, hl⟩,
        hp.trans perm_middle, fun hnd => hno (nodup_cons.2 ⟨hf, hnd⟩), ?_⟩
      exact forall_mem_cons.2 ⟨⟨hlt, hr⟩, hlow⟩

theorem validateFree_of_linked {l : List ℕ} (listed : List ℕ)
    (hl : Linked a.heap.Next NONE cursor l)
    (hlow : ∀ i ∈ l, i < a.bumpIndex ∧ i ∉ reachable) (hnd : (l ++ listed).Nodup)
    (hf : l.length < fuel) :
    ∃ free, a.validateFree reachable fuel cursor listed = .ok free ∧ free.Perm (l ++ listed) := by
  induction l generalizing fuel cursor listed with
  | nil =>
    obtain ⟨fuel, rfl⟩ := exists_eq_succ_of_ne_zero (Nat.ne_zero_of_lt hf)
    have hn : cursor = NONE := hl
    exact ⟨listed, by rw [validateFree, if_pos hn]; rfl, .refl _⟩
  | cons i rest ih =>
    obtain ⟨fuel, rfl⟩ := exists_eq_succ_of_ne_zero (Nat.ne_zero_of_lt hf)
    obtain ⟨rfl, hn, next, hne, hre⟩ := hl
    obtain ⟨⟨hlt, hr⟩, hlow⟩ := forall_mem_cons.1 hlow
    have hfr : cursor ∉ listed := disjoint_of_nodup_append hnd (by simp)
    obtain ⟨free, hok, hp⟩ := ih (cursor :: listed) hre hlow
      (perm_middle.nodup_iff.2 hnd) (lt_of_succ_lt_succ hf)
    refine ⟨free, ?_, hp.trans perm_middle⟩
    rw [validateFree, if_neg hn]
    simp only [ok_rules]
    exact ⟨⟨hlt, hfr, hr⟩, next, nextFree_eq_ok.2 hne, hok⟩

/-! ## The whole arena -/

/-- An arena laid out without loose slots, whose leaf counts are right. -/
structure LaidOut (a : Arena) (forest : Forest) (free : List ℕ) : Prop where
  layout : Layout a forest free []
  counts : ∀ k, a.leafCounts k = (leavesOf (forest k)).length

theorem isUninitialized_iff {node : Node} :
    isUninitialized node = true ↔ node = .uninitialized := by
  cases node <;> simp [isUninitialized]

theorem sum_kinds (f : TreeKind → ℕ) : ∑ k, f k = f .fixed + f .oraclePegged := by
  rw [show (Finset.univ : Finset TreeKind) = {.fixed, .oraclePegged} from rfl,
    Finset.sum_pair (by decide)]

theorem unused_iff (hb : a.bumpIndex ≤ arenaCapacity) :
    ((range (arenaCapacity - a.bumpIndex)).all fun i =>
      isUninitialized (a.nodes (a.bumpIndex + i))) = true ↔
    ∀ i, a.heap.bump ≤ i → a.heap.slot i = .unused := by
  simp only [all_eq_true, mem_range, isUninitialized_iff]
  constructor
  · intro h i hi
    change a.bumpIndex ≤ i at hi
    by_cases hc : i < arenaCapacity
    · have := h (i - a.bumpIndex) (by omega)
      rw [Nat.add_sub_cancel' hi] at this
      exact (slot_eq_unused hc).2 this
    · simp [heap, hc]
  · intro h i hi
    exact (slot_eq_unused (by omega)).1 (h _ (Nat.le_add_right _ _))

/-- Validation accepts exactly the arenas that are laid out. -/
theorem validate_iff : a.validate = .ok () ↔ ∃ forest free, a.LaidOut forest free := by
  simp only [validate, ok_rules]
  constructor
  · rintro ⟨hb, ⟨n₁, r₁⟩, h₁, hn₁, ⟨n₂, r₂⟩, h₂, hn₂, free, hfr, hlen, ha, hu⟩
    obtain ⟨o₁, hr₁, ht₁, rfl, hp₁, hnd₁, hl₁⟩ := exists_tree_of_validateTree hb h₁
    obtain ⟨o₂, hro₂, ht₂, rfl, hp₂, hnd₂, hl₂⟩ := exists_tree_of_validateTree hb h₂
    obtain ⟨l, hl, hpl, hndl, hlo⟩ := linked_of_validateFree hfr
    rw [append_nil] at hp₁ hpl
    have hre : r₂.Perm (handlesOf o₁ ++ handlesOf o₂) :=
      (hp₂.trans (hp₁.append_left _)).trans perm_append_comm
    let forest : Forest := fun k => k.casesOn o₁ o₂
    refine ⟨forest, l, ⟨?_, ?_, ?_, hl, ?_, hb, ?_, (unused_iff hb).1 ?_⟩, ?_⟩
    · rintro (_ | _)
      · exact hr₁
      · exact hro₂
    · rintro (_ | _) t ht
      · exact (ht₁ t ht).1
      · exact (ht₂ t ht).1
    · rintro (_ | _) t ht
      · exact (ht₁ t ht).2
      · exact (ht₂ t ht).2
    · exact hlen.symm.trans hpl.length_eq
    · -- every slot below the cursor is found once, by one of the three walks
      intro i
      rw [sum_kinds, append_nil]
      change (handlesOf o₁).count i + (handlesOf o₂).count i + l.count i = _
      rw [← count_append, ← hre.count_eq, ← hpl.count_eq]
      have hr := nodup_iff_count_le_one.1 (hnd₂ (hnd₁ nodup_nil)) i
      have hf := nodup_iff_count_le_one.1 (hndl nodup_nil) i
      by_cases hi : i < a.bumpIndex
      · have hco := all_eq_true.1 ha i (mem_range.2 hi)
        simp only [Bool.or_eq_true, decide_eq_true_eq] at hco
        change _ = if i < a.bumpIndex then 1 else 0
        rw [if_pos hi]
        rcases hco with hmem | hmem
        · have hn : i ∉ free := fun hm => (hlo i (hpl.mem_iff.1 hm)).2 hmem
          have := count_pos_iff.2 hmem
          rw [count_eq_zero.2 hn]
          omega
        · have hn := (hlo i (hpl.mem_iff.1 hmem)).2
          have := count_pos_iff.2 hmem
          rw [count_eq_zero.2 hn]
          omega
      · change _ = if i < a.bumpIndex then 1 else 0
        have hr₂ : i ∉ r₂ := by
          intro hm
          rcases mem_append.1 (hre.mem_iff.1 hm) with hm | hm
          · exact hi (hl₁ i hm)
          · exact hi (hl₂ i hm)
        have hn : i ∉ free := fun hm => hi (hlo i (hpl.mem_iff.1 hm)).1
        rw [if_neg hi, count_eq_zero.2 hr₂, count_eq_zero.2 hn]
    · exact require_eq_ok.1 hu
    · rintro (_ | _)
      · exact hn₁.symm
      · exact hn₂.symm
  · rintro ⟨forest, free, L, hc⟩
    have hb : a.bumpIndex ≤ arenaCapacity := L.bump_le
    have hlow (k : TreeKind) : ∀ i ∈ handlesOf (forest k), i < a.bumpIndex := fun i hi =>
      L.lt_bump hi
    have hno (k : TreeKind) := (nodup_append.1 (L.nodup k)).1
    obtain ⟨r₁, h₁, hp₁⟩ := validateTree_of_root [] hb (L.root .fixed)
      (L.stores .fixed) (L.wf .fixed) (hlow .fixed) (by simpa using hno .fixed)
    rw [append_nil] at hp₁
    have hd : (handlesOf (forest .oraclePegged) ++ r₁).Nodup := by
      rw [(hp₁.append_left _).nodup_iff]
      refine Nodup.append (hno .oraclePegged) (hno .fixed) fun i hi hi' => ?_
      exact L.apart (show TreeKind.oraclePegged ≠ .fixed by decide) hi hi'
    obtain ⟨r₂, h₂, hp₂⟩ := validateTree_of_root r₁ hb (L.root .oraclePegged)
      (L.stores .oraclePegged) (L.wf .oraclePegged) (hlow .oraclePegged) hd
    have hre {i : ℕ} : i ∈ r₂ ↔ ∃ k, i ∈ handlesOf (forest k) := by
      rw [hp₂.mem_iff, mem_append, hp₁.mem_iff]
      constructor
      · rintro (h | h)
        · exact ⟨_, h⟩
        · exact ⟨_, h⟩
      · rintro ⟨_ | _, h⟩
        · exact .inr h
        · exact .inl h
    have hfr : ∀ i ∈ free, i < a.bumpIndex ∧ i ∉ r₂ := fun i hi =>
      ⟨L.lt_bump_of_mem (by simp [hi]), fun hm => by
        obtain ⟨k, hk⟩ := hre.1 hm
        exact L.tree_not_free hk (by simp [hi])⟩
    have hle : free.length < arenaCapacity + 1 := by
      have : (free ++ []).length ≤ a.bumpIndex := L.length_le_bump
      rw [append_nil] at this
      omega
    obtain ⟨listed, h₃, hp₃⟩ := validateFree_of_linked [] L.linked hfr L.nodup_free hle
    rw [append_nil] at hp₃
    refine ⟨hb, _, h₁, (hc _).symm, _, h₂, (hc _).symm, listed, h₃, ?_, ?_, ?_⟩
    · exact hp₃.length_eq.trans L.count.symm
    · rw [all_eq_true]
      intro i hi
      simp only [Bool.or_eq_true, decide_eq_true_eq, hre, hp₃.mem_iff]
      simpa using L.lt_bump_iff.1 (mem_range.1 hi)
    · exact require_eq_ok.2 ((unused_iff hb).2 L.unused)

end Arena

end Equinox.V2
