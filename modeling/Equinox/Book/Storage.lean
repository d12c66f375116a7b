import Equinox.Book.Paged
import Equinox.CritBit.Descent

/-! # Stored trees of a paged book

Which cell each handle of a book holds, and what the writes of the book do to
it. The refresh of a path restores the cached expiries above a replaced subtree.
-/

namespace Equinox

open Foundation CritBit List LeafNode

def cellNode : Cell Key LeafNode ℕ → Node
  | .leaf leaf => .leaf leaf
  | .inner prefixLen key children childEarliestExpiry =>
    .inner { prefixLen, key, children, childEarliestExpiry }

namespace PagedBookV3

def node (b : PagedBookV3) (handle : ℕ) : Node :=
  (b.pages (handle / bookNodesPerPage)).nodes (handle % bookNodesPerPage)

def write (b : PagedBookV3) (handle : ℕ) (node : Node) : PagedBookV3 :=
  b.modifyPage (handle / bookNodesPerPage) fun data =>
    { data with nodes := fun i => if i = handle % bookNodesPerPage then node else data.nodes i }

variable {b b' : PagedBookV3} {handle i : ℕ} {n : Node}

theorem node_write : (b.write handle n).node i = if i = handle then n else b.node i := by
  have hinj : i / bookNodesPerPage = handle / bookNodesPerPage →
      i % bookNodesPerPage = handle % bookNodesPerPage → i = handle := by
    intro hd hm
    rw [← Nat.div_add_mod i bookNodesPerPage, hd, hm, Nat.div_add_mod]
  unfold node write modifyPage
  by_cases hi : i = handle
  · simp [hi]
  · by_cases hd : i / bookNodesPerPage = handle / bookNodesPerPage
    · have hm : i % bookNodesPerPage ≠ handle % bookNodesPerPage := fun hm => hi (hinj hd hm)
      simp [hi, hd, hm]
    · simp [hi, hd]

theorem node_modifyPage {page : ℕ} {f : BookPage → BookPage}
    (hf : ∀ page, (f page).nodes = page.nodes) : (b.modifyPage page f).node i = b.node i := by
  unfold node modifyPage
  dsimp only
  split <;> simp [hf]

section WithRoot

variable {tree : TreeKind} {value : ℕ}

@[simp] theorem node_withRoot : (b.withRoot tree value).node i = b.node i :=
  node_modifyPage fun page => by cases tree <;> rfl

theorem root_withRoot (k : TreeKind) :
    (b.withRoot tree value).root k = if k = tree then value else b.root k := by
  cases tree <;> cases k <;> rfl

@[simp] theorem freeHead_withRoot : (b.withRoot tree value).freeHead = b.freeHead := by
  cases tree <;> rfl

@[simp] theorem freeCount_withRoot : (b.withRoot tree value).freeCount = b.freeCount := by
  cases tree <;> rfl

@[simp] theorem bumpIndex_withRoot : (b.withRoot tree value).bumpIndex = b.bumpIndex := by
  cases tree <;> rfl

theorem run_setRoot {u : Unit} : setRoot tree value b = .ok u b' ↔ b.withRoot tree value = b' := by
  simp [setRoot]

end WithRoot

@[simp] theorem root_write (k : TreeKind) : (b.write handle n).root k = b.root k := by
  cases k <;> (simp only [root, write, modifyPage]; split <;> rfl)

@[simp] theorem freeHead_write : (b.write handle n).freeHead = b.freeHead := by
  simp only [freeHead, write, modifyPage]; split <;> rfl

@[simp] theorem freeCount_write : (b.write handle n).freeCount = b.freeCount := by
  simp only [freeCount, write, modifyPage]; split <;> rfl

@[simp] theorem bumpIndex_write : (b.write handle n).bumpIndex = b.bumpIndex := by
  simp only [bumpIndex, write, modifyPage]; split <;> rfl

theorem nodeBytes_eq_ok :
    b.nodeBytes handle = .ok n ↔ handle < bookSlotsPerSide ∧ b.node handle = n := by
  simp [nodeBytes, pageSlot, node]

theorem run_putNodeBytes {u : Unit} : putNodeBytes handle n b = .ok u b' ↔
    handle < bookSlotsPerSide ∧ b.write handle n = b' := by
  simp [putNodeBytes, pageSlot, write]

def Holds (b : PagedBookV3) (handle : ℕ) (cell : Cell Key LeafNode ℕ) : Prop :=
  b.nodeBytes handle = .ok (cellNode cell)

variable {c : Cell Key LeafNode ℕ}

theorem Holds.node_eq (h : b.Holds handle c) : b.node handle = cellNode c := (nodeBytes_eq_ok.1 h).2

theorem Holds.lt (h : b.Holds handle c) : handle < bookSlotsPerSide := (nodeBytes_eq_ok.1 h).1

theorem Holds.ne_none (h : b.Holds handle c) : handle ≠ NONE := (h.lt.trans (by decide)).ne

theorem Holds.nodeBytes (h : b.Holds handle c) : b.nodeBytes handle = .ok (cellNode c) := h

theorem Holds.congr (h : b.Holds i c) (hn : b'.node i = b.node i) :
    b'.Holds i c := nodeBytes_eq_ok.2 ⟨h.lt, hn.trans h.node_eq⟩

theorem holds_write (h : handle < bookSlotsPerSide) (c : Cell Key LeafNode ℕ) :
    (b.write handle (cellNode c)).Holds handle c := nodeBytes_eq_ok.2 ⟨h, by simp [node_write]⟩

/-- Two books with the same header, and the same records but at some handles. -/
structure AgreeOff (hs : List ℕ) (b b' : PagedBookV3) : Prop where
  node : ∀ i ∉ hs, b'.node i = b.node i
  root : ∀ k, b'.root k = b.root k
  freeHead : b'.freeHead = b.freeHead
  freeCount : b'.freeCount = b.freeCount
  bumpIndex : b'.bumpIndex = b.bumpIndex

theorem AgreeOff.refl (hs : List ℕ) (b : PagedBookV3) : AgreeOff hs b b :=
  ⟨fun _ _ => rfl, fun _ => rfl, rfl, rfl, rfl⟩

theorem AgreeOff.trans {hs : List ℕ} {b₁ b₂ b₃ : PagedBookV3} (h : AgreeOff hs b₁ b₂)
    (h' : AgreeOff hs b₂ b₃) : AgreeOff hs b₁ b₃ where
  node i hi := (h'.node i hi).trans (h.node i hi)
  root k := (h'.root k).trans (h.root k)
  freeHead := h'.freeHead.trans h.freeHead
  freeCount := h'.freeCount.trans h.freeCount
  bumpIndex := h'.bumpIndex.trans h.bumpIndex

theorem AgreeOff.mono {hs hs' : List ℕ} (h : AgreeOff hs b b') (hsub : ∀ i ∈ hs, i ∈ hs') :
    AgreeOff hs' b b' :=
  { h with node := fun i hi => h.node i fun hm => hi (hsub i hm) }

theorem agreeOff_write (b : PagedBookV3) (handle : ℕ) (n : Node) :
    AgreeOff [handle] b (b.write handle n) where
  node i hi := by simp_all [node_write]
  root := root_write
  freeHead := freeHead_write
  freeCount := freeCount_write
  bumpIndex := bumpIndex_write

abbrev BookTree := Tree Key LeafNode

abbrev BookFrame := Frame Key LeafNode

/-- A tree is stored in a book, with its cached expiries. -/
def Stores (b : PagedBookV3) (t : BookTree) : Prop := t.Stored expiresAt b.Holds

def StoresContext (b : PagedBookV3) (fs : List BookFrame) (hole : ℕ) : Prop :=
  ContextStored expiresAt b.Holds fs hole

variable {t : BookTree} {fs : List BookFrame} {hs : List ℕ}

theorem Stores.congr (h : b.Stores t) (hn : ∀ i ∈ t.handles, b'.node i = b.node i) :
    b'.Stores t := Tree.Stored.frame h fun i hi _ hc => hc.congr (hn i hi)

theorem StoresContext.congr {hole : ℕ} (h : b.StoresContext fs hole)
    (hn : ∀ i ∈ contextHandles fs, b'.node i = b.node i) : b'.StoresContext fs hole :=
  ContextStored.frame h fun i hi _ hc => hc.congr (hn i hi)

theorem Stores.off (h : b.Stores t) (ha : AgreeOff hs b b') (hd : ∀ i ∈ t.handles, i ∉ hs) :
    b'.Stores t := h.congr fun i hi => ha.node i (hd i hi)

theorem StoresContext.off {hole : ℕ} (h : b.StoresContext fs hole) (ha : AgreeOff hs b b')
    (hd : ∀ i ∈ contextHandles fs, i ∉ hs) : b'.StoresContext fs hole :=
  h.congr fun i hi => ha.node i (hd i hi)

variable {p : ℕ} {rep : Key} {cache : Bool → ℕ}

theorem inner_eq_ok {children : Bool → ℕ}
    (h : b.Holds handle (.inner p rep children cache)) :
    b.inner handle = .ok ⟨p, rep, children, cache⟩ := by
  unfold inner
  rw [h]
  rfl

theorem leaf_eq_ok {leaf : LeafNode} : b.leaf handle = .ok leaf ↔ b.Holds handle (.leaf leaf) := by
  unfold PagedBookV3.leaf Holds
  cases h : b.nodeBytes handle with
  | error e => simp [bind, Except.bind]
  | ok n => cases n <;> simp [bind, Except.bind, cellNode]

theorem Stores.nodeBytes_leaf {leaf : LeafNode} (h : b.Stores (.leaf handle leaf)) :
    b.nodeBytes handle = .ok (.leaf leaf) := h

theorem Stores.nodeBytes_inner {child : Bool → BookTree}
    (h : b.Stores (.inner handle p rep child)) :
    b.nodeBytes handle = .ok (.inner ⟨p, rep, fun c => (child c).handle,
      fun c => (child c).least expiresAt⟩) := h.1

theorem Stores.subtreeExpiry (h : b.Stores t) :
    b.subtreeExpiry t.handle = .ok (t.least expiresAt) := by
  cases t with
  | leaf i leaf =>
    simp only [PagedBookV3.subtreeExpiry, Tree.handle, h.nodeBytes_leaf]
    rfl
  | inner i p rep child =>
    simp only [PagedBookV3.subtreeExpiry, Tree.handle, h.nodeBytes_inner]
    rfl

theorem run_refreshInner {child : Bool → BookTree}
    (h : b.Holds handle (.inner p rep (fun c => (child c).handle) cache))
    (hs : ∀ c, b.Stores (child c)) :
    refreshInner handle b = .ok () (b.write handle (cellNode
      (.inner p rep (fun c => (child c).handle) fun c => (child c).least expiresAt))) := by
  have hc : sided true ((child true).least expiresAt)
      ((child false).least expiresAt) = fun c => (child c).least expiresAt := by
    funext c; cases c <;> rfl
  simp only [refreshInner, run_bind_eq_ok, run_reading_eq_ok]
  refine ⟨_, b, ⟨inner_eq_ok h, rfl⟩, _, b, ⟨(hs false).subtreeExpiry, rfl⟩, _, b,
    ⟨(hs true).subtreeExpiry, rfl⟩, ?_⟩
  exact run_putNodeBytes.2 ⟨h.lt, by rw [hc]; rfl⟩

theorem run_refreshInner_frame {f : BookFrame}
    (h : b.Holds f.handle
      (.inner f.prefixLen f.rep (sided f.branch t.handle f.sibling.handle) cache))
    (ht : b.Stores t) (hs : b.Stores f.sibling) (hnt : f.handle ∉ t.handles)
    (hns : f.handle ∉ f.sibling.handles) :
    ∃ b', refreshInner f.handle b = .ok () b' ∧ b'.Stores (f.fill t) ∧
      AgreeOff [f.handle] b b' := by
  rw [← map_sided Tree.handle] at h
  refine ⟨_, run_refreshInner h (forall_sided.2 ⟨ht, hs⟩), ?_, agreeOff_write _ _ _⟩
  have ha := agreeOff_write b f.handle (cellNode (.inner f.prefixLen f.rep
    (fun c => (sided f.branch t f.sibling c).handle)
    fun c => (sided f.branch t f.sibling c).least expiresAt))
  refine Frame.stored_fill_iff.2 ⟨?_, ht.off ha ?_, hs.off ha ?_⟩
  · rw [map_sided Tree.handle, map_sided (Tree.least expiresAt)]
    exact holds_write h.lt _
  · intro i hi; simp only [mem_singleton]; rintro rfl; exact hnt hi
  · intro i hi; simp only [mem_singleton]; rintro rfl; exact hns hi

theorem run_refreshAncestors (ht : b.Stores t) (hc : b.StoresContext fs t.handle)
    (hnd : (t.handles ++ contextHandles fs).Nodup) :
    ∃ b', ((pathOf fs).forM fun ancestor => refreshInner ancestor.1) b = .ok () b' ∧
      b'.Stores (plug fs t) ∧ AgreeOff (fs.map (·.handle)) b b' := by
  induction fs generalizing b t with
  | nil => exact ⟨b, rfl, ht, AgreeOff.refl _ _⟩
  | cons f fs ih =>
    obtain ⟨⟨cache, hce⟩, hs, hr⟩ := hc
    have hnd' : ((f.fill t).handles ++ contextHandles fs).Nodup := by
      refine (Perm.nodup_iff ?_).1 hnd
      rw [contextHandles_cons, ← append_assoc]
      exact Frame.handles_fill.symm.append_right _
    have hf := (nodup_append.1 hnd').1
    rw [Frame.handles_fill.nodup_iff, nodup_middle, nodup_cons, mem_append, not_or] at hf
    obtain ⟨b₁, hrun, hst, ho⟩ := run_refreshInner_frame hce ht hs hf.1.1 hf.1.2
    have hout : ∀ i ∈ contextHandles fs, i ∉ [f.handle] := by
      intro i hi hm
      rw [mem_singleton] at hm
      subst hm
      exact disjoint_of_nodup_append hnd' (f.fill t).handle_mem_handles hi
    obtain ⟨b₂, hr', hst', ho'⟩ := ih hst (StoresContext.off hr ho hout) hnd'
    refine ⟨b₂, ?_, hst', ?_⟩
    · exact run_bind_eq_ok.2 ⟨_, _, hrun, hr'⟩
    · exact (ho.mono (by simp)).trans (ho'.mono (by simp +contextual))

theorem AgreeOff.withRoot_self (h : AgreeOff hs b b') (tree : TreeKind) :
    AgreeOff hs (b.withRoot tree (b.root tree)) b' where
  node i hi := by simpa using h.node i hi
  root k := by
    rw [h.root, root_withRoot]
    split
    · rename_i hk; rw [hk]
    · rfl
  freeHead := by simpa using h.freeHead
  freeCount := by simpa using h.freeCount
  bumpIndex := by simpa using h.bumpIndex

/-- Replacing the subtree below some frames stores the plugged tree and moves the root to it. -/
theorem run_replaceChild {tree : TreeKind} {old : BookTree} (ht : b.Stores t)
    (hold : b.Stores (plug fs old)) (hro : b.root tree = (plug fs old).handle)
    (hnd : (t.handles ++ contextHandles fs).Nodup) :
    ∃ b', replaceChild tree (pathOf fs) t.handle b = .ok () b' ∧ b'.Stores (plug fs t) ∧
      AgreeOff (fs.map (·.handle)) (b.withRoot tree (plug fs t).handle) b' := by
  have hc := (contextStored_of_stored hold).2
  cases fs with
  | nil =>
    exact ⟨_, run_setRoot.2 rfl, ht.congr fun _ _ => node_withRoot, AgreeOff.refl _ _⟩
  | cons f fs =>
    obtain ⟨⟨cache, hce⟩, hs, hr⟩ := hc
    have hmid := hnd
    rw [contextHandles_cons, cons_append, nodup_middle, nodup_cons,
      mem_append, mem_append, not_or, not_or] at hmid
    let cell : Cell Key LeafNode ℕ :=
      .inner f.prefixLen f.rep (sided f.branch t.handle f.sibling.handle) cache
    have ho := agreeOff_write b f.handle (cellNode cell)
    have hout {l : List ℕ} (hl : f.handle ∉ l) : ∀ i ∈ l, i ∉ [f.handle] := by
      intro i hi hm
      rw [mem_singleton] at hm
      exact hl (hm ▸ hi)
    have hp : putInner f.handle ⟨f.prefixLen, f.rep,
        fun c => if c = f.branch then t.handle
          else sided f.branch old.handle f.sibling.handle c,
        cache⟩ b = .ok () (b.write f.handle (cellNode cell)) := by
      refine run_putNodeBytes.2 ⟨hce.lt, ?_⟩
      simp only [cell, cellNode]
      congr 4
      funext c
      unfold sided
      split <;> rfl
    have hr' : (b.write f.handle (cellNode cell)).StoresContext (f :: fs) t.handle :=
      ⟨⟨cache, holds_write hce.lt cell⟩, Stores.off hs ho (hout hmid.1.2.1),
        StoresContext.off hr ho (hout hmid.1.2.2)⟩
    obtain ⟨b', hrun, hst, ho'⟩ := run_refreshAncestors (ht.off ho (hout hmid.1.1)) hr' hnd
    have hro' : (plug (f :: fs) t).handle = b.root tree := by
      rw [hro]
      exact handle_plug_congr (t := f.fill t) rfl
    refine ⟨b', ?_, hst, ?_⟩
    · exact run_bind_eq_ok.2 ⟨_, b, by simpa using inner_eq_ok hce,
        run_bind_eq_ok.2 ⟨_, _, hp, hrun⟩⟩
    · rw [hro']
      exact ((ho.mono (by simp)).trans ho').withRoot_self tree

end PagedBookV3

end Equinox
