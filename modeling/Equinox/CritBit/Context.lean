import Equinox.CritBit.Tree

/-! # Contexts and storage of crit-bit trees

A subtree is reached along a list of frames, innermost first; plugging another
subtree into the same frames is what insertion and removal do. Storage is a
predicate on handles and cells, so that a memory only has to say which cell each
handle holds.
-/

namespace CritBit

variable {K V E : Type*}

structure Frame (K V : Type*) where
  handle : ℕ
  prefixLen : ℕ
  rep : K
  branch : Bool
  sibling : Tree K V

/-- The inner node of a frame with a subtree on the frame's branch. -/
def Frame.fill (f : Frame K V) (t : Tree K V) : Tree K V :=
  .inner f.handle f.prefixLen f.rep (sided f.branch t f.sibling)

/-- A tree from a subtree and the frames above it, innermost first. -/
def plug : List (Frame K V) → Tree K V → Tree K V
  | [], t => t
  | f :: fs, t => plug fs (f.fill t)

def contextLeaves (fs : List (Frame K V)) : List (ℕ × V) :=
  fs.flatMap fun f => f.sibling.leaves

def contextHandles (fs : List (Frame K V)) : List ℕ :=
  fs.flatMap fun f => f.handle :: f.sibling.handles

variable {f : Frame K V} {fs : List (Frame K V)} {t : Tree K V}

@[simp] theorem contextLeaves_cons :
    contextLeaves (f :: fs) = f.sibling.leaves ++ contextLeaves fs := rfl

@[simp] theorem contextHandles_cons :
    contextHandles (f :: fs) = f.handle :: f.sibling.handles ++ contextHandles fs := rfl

@[simp] theorem Frame.fill_handle : (f.fill t).handle = f.handle := rfl

theorem Frame.fill_branch (h p : ℕ) (rep : K) (child : Bool → Tree K V) (c : Bool) :
    (Frame.mk h p rep c (child !c)).fill (child c) = .inner h p rep child := by
  simp [fill, sided_eta]

theorem Frame.leaves_fill : (f.fill t).leaves.Perm (t.leaves ++ f.sibling.leaves) := by
  unfold fill
  cases f.branch
  · exact .refl _
  · exact List.perm_append_comm

theorem Frame.handles_fill :
    (f.fill t).handles.Perm (t.handles ++ f.handle :: f.sibling.handles) := by
  have h : (f.fill t).handles.Perm (f.handle :: (t.handles ++ f.sibling.handles)) := by
    unfold fill
    cases f.branch
    · exact .refl _
    · exact List.perm_append_comm.cons _
  exact h.trans List.perm_middle.symm

theorem plug_append {gs : List (Frame K V)} : plug (fs ++ gs) t = plug gs (plug fs t) := by
  induction fs generalizing t with
  | nil => rfl
  | cons f fs ih => exact ih

theorem leaves_plug : (plug fs t).leaves.Perm (t.leaves ++ contextLeaves fs) := by
  induction fs generalizing t with
  | nil => simp [plug, contextLeaves]
  | cons f fs ih =>
    refine ih.trans ?_
    rw [contextLeaves_cons, ← List.append_assoc]
    exact Frame.leaves_fill.append_right _

theorem handles_plug : (plug fs t).handles.Perm (t.handles ++ contextHandles fs) := by
  induction fs generalizing t with
  | nil => simp [plug, contextHandles]
  | cons f fs ih =>
    refine ih.trans ?_
    rw [contextHandles_cons, ← List.append_assoc]
    exact Frame.handles_fill.append_right _

/-- A leaf hung below a new node takes two more handles. -/
theorem handles_hung {i : ℕ} {v : V} : (plug (f :: fs) (.leaf i v)).handles.Perm
    ((plug fs f.sibling).handles ++ [f.handle, i]) := by
  refine handles_plug.trans (List.Perm.trans ?_ (handles_plug.append_right _).symm)
  change (i :: f.handle :: (f.sibling.handles ++ contextHandles fs)).Perm _
  have hc : ([f.handle, i] ++ (f.sibling.handles ++ contextHandles fs)).Perm
      (f.sibling.handles ++ contextHandles fs ++ [f.handle, i]) := List.perm_append_comm
  exact (List.Perm.swap _ _ _).trans hc

theorem handle_plug_congr {t t' : Tree K V} (ht : t.handle = t'.handle) :
    (plug fs t).handle = (plug fs t').handle := by
  induction fs generalizing t t' with
  | nil => exact ht
  | cons f fs ih => exact ih rfl

theorem Frame.handle_mem (hf : f ∈ fs) :
    f.handle ∈ contextHandles fs := List.mem_flatMap.2 ⟨f, hf, by simp⟩

theorem exists_plug_of_mem_leaves {x : ℕ × V} (hx : x ∈ t.leaves) :
    ∃ fs, t = plug fs (.leaf x.1 x.2) := by
  induction t with
  | leaf h v =>
    obtain rfl : x = (h, v) := by simpa [Tree.leaves] using hx
    exact ⟨[], rfl⟩
  | inner h p rep child ih =>
    obtain ⟨c, hc⟩ := Tree.mem_leaves_inner.1 hx
    obtain ⟨fs, hfs⟩ := ih c hc
    refine ⟨fs ++ [⟨h, p, rep, c, child !c⟩], ?_⟩
    rw [plug_append, ← hfs]
    exact (Frame.fill_branch _ _ _ _ _).symm

section WellFormed

variable [LinearOrder K] [BitKey K] {key : V → K}

open BitKey

/-- A key belongs below every frame: it has each node's prefix and takes each frame's branch. -/
def Admits (fs : List (Frame K V)) (k : K) : Prop :=
  ∀ f ∈ fs, Agree f.prefixLen f.rep k ∧ bit k f.prefixLen = f.branch

/-- Everything well-formedness asks of the frames, apart from the plugged subtree. -/
def ContextWF (key : V → K) : List (Frame K V) → Prop
  | [] => True
  | f :: fs => f.prefixLen < width K ∧ f.sibling.WF key ∧
      (∀ x ∈ f.sibling.leaves, Agree f.prefixLen f.rep (key x.2) ∧
        bit (key x.2) f.prefixLen = !f.branch) ∧
      (∀ x ∈ f.sibling.leaves, Admits fs (key x.2)) ∧ ContextWF key fs

theorem Frame.wf_fill_iff : (f.fill t).WF key ↔ f.prefixLen < width K ∧ t.WF key ∧
    f.sibling.WF key ∧
    (∀ x ∈ t.leaves, Agree f.prefixLen f.rep (key x.2) ∧ bit (key x.2) f.prefixLen = f.branch) ∧
    ∀ x ∈ f.sibling.leaves, Agree f.prefixLen f.rep (key x.2) ∧
      bit (key x.2) f.prefixLen = !f.branch := by
  simp only [fill, Tree.WF, forall_sided, and_assoc]
  cases f.branch
  · simp [sided, Bool.forall_bool]
  · simp only [sided, Bool.forall_bool]
    tauto

theorem admits_cons {k : K} : Admits (f :: fs) k ↔
    (Agree f.prefixLen f.rep k ∧ bit k f.prefixLen = f.branch) ∧ Admits fs k := by
  simp [Admits]

theorem wf_plug_iff : (plug fs t).WF key ↔
    t.WF key ∧ (∀ x ∈ t.leaves, Admits fs (key x.2)) ∧ ContextWF key fs := by
  induction fs generalizing t with
  | nil => simp [plug, Admits, ContextWF]
  | cons f fs ih =>
    have hmem {p : ℕ × V → Prop} : (∀ x ∈ (f.fill t).leaves, p x) ↔
        (∀ x ∈ t.leaves, p x) ∧ ∀ x ∈ f.sibling.leaves, p x := by
      simp only [Frame.leaves_fill.mem_iff, List.mem_append, or_imp, forall_and]
    simp only [plug, ih, Frame.wf_fill_iff, hmem, admits_cons, ContextWF, forall_and]
    tauto

theorem ContextWF.key_ne {k : K} (hw : ContextWF key fs) (ha : Admits fs k) {x : ℕ × V}
    (hx : x ∈ contextLeaves fs) : key x.2 ≠ k := by
  induction fs with
  | nil => simp [contextLeaves] at hx
  | cons f fs ih =>
    obtain ⟨⟨-, hb⟩, har⟩ := admits_cons.1 ha
    obtain ⟨-, -, hs, -, hwr⟩ := hw
    rw [contextLeaves_cons, List.mem_append] at hx
    rcases hx with hx | hx
    · rintro rfl
      simp [(hs x hx).2] at hb
    · exact ih hwr har hx

end WellFormed

/-- What one cell of a stored tree holds. -/
inductive Cell (K V E : Type*) where
  | leaf (value : V)
  | inner (prefixLen : ℕ) (rep : K) (children : Bool → ℕ) (cache : Bool → E)

variable [LinearOrder E] {due : V → E} {holds holds' : ℕ → Cell K V E → Prop}

/-- Every node's cell holds the node, with its children's handles and cached minima. -/
def Tree.Stored (due : V → E) (holds : ℕ → Cell K V E → Prop) : Tree K V → Prop
  | leaf h v => holds h (.leaf v)
  | inner h p rep child =>
    holds h (.inner p rep (fun c => (child c).handle) (fun c => (child c).least due)) ∧
      ∀ c, (child c).Stored due holds

/-- The frames are stored with the right handles; their cached minima may be stale. -/
def ContextStored (due : V → E) (holds : ℕ → Cell K V E → Prop) : List (Frame K V) → ℕ → Prop
  | [], _ => True
  | f :: fs, hole =>
    (∃ cache, holds f.handle
      (.inner f.prefixLen f.rep (sided f.branch hole f.sibling.handle) cache)) ∧
      f.sibling.Stored due holds ∧ ContextStored due holds fs f.handle

theorem Tree.Stored.frame (h : t.Stored due holds)
    (hf : ∀ i ∈ t.handles, ∀ c, holds i c → holds' i c) : t.Stored due holds' := by
  induction t with
  | leaf => exact hf _ (by simp [handles]) _ h
  | inner i p rep child ih =>
    refine ⟨hf _ (by simp [handles]) _ h.1, fun c => ih c (h.2 c) ?_⟩
    exact fun j hj => hf j (mem_handles_inner.2 (.inr ⟨c, hj⟩))

theorem ContextStored.frame {hole : ℕ} (h : ContextStored due holds fs hole)
    (hf : ∀ i ∈ contextHandles fs, ∀ c, holds i c → holds' i c) :
    ContextStored due holds' fs hole := by
  induction fs generalizing hole with
  | nil => trivial
  | cons f fs ih =>
    simp only [contextHandles_cons, List.cons_append, List.mem_cons, List.mem_append] at hf
    obtain ⟨⟨cache, hc⟩, hs, hr⟩ := h
    exact ⟨⟨cache, hf _ (.inl rfl) _ hc⟩, hs.frame fun i hi => hf i (.inr (.inl hi)),
      ih hr fun i hi => hf i (.inr (.inr hi))⟩

theorem Frame.stored_fill_iff : (f.fill t).Stored due holds ↔
    holds f.handle (.inner f.prefixLen f.rep (sided f.branch t.handle f.sibling.handle)
      (sided f.branch (t.least due) (f.sibling.least due))) ∧
    t.Stored due holds ∧ f.sibling.Stored due holds := by
  simp only [fill, Tree.Stored, forall_sided, map_sided]

theorem contextStored_of_stored (h : (plug fs t).Stored due holds) :
    t.Stored due holds ∧ ContextStored due holds fs t.handle := by
  induction fs generalizing t with
  | nil => exact ⟨h, trivial⟩
  | cons f fs ih =>
    obtain ⟨hf, hctx⟩ := ih h
    obtain ⟨hc, ht, hs⟩ := Frame.stored_fill_iff.1 hf
    exact ⟨ht, ⟨_, hc⟩, hs, hctx⟩

theorem Tree.Stored.mem_leaves (hf : ∀ i c c', holds i c → holds i c' → c = c')
    (h : t.Stored due holds) {i : ℕ} {v : V} (hi : i ∈ t.handles) (hv : holds i (.leaf v)) :
    (i, v) ∈ t.leaves := by
  induction t with
  | leaf j w =>
    obtain rfl : i = j := by simpa [handles] using hi
    have := hf _ _ _ hv h
    simp_all [leaves]
  | inner j p rep child ih =>
    rcases mem_handles_inner.1 hi with rfl | ⟨c, hc⟩
    · have := hf _ _ _ hv h.1
      simp at this
    · exact mem_leaves_inner.2 ⟨c, ih c (h.2 c) hc⟩

theorem Frame.least_fill_congr {t' : Tree K V} (h : t.least due = t'.least due) :
    (f.fill t).least due = (f.fill t').least due := by
  unfold fill Tree.least
  cases f.branch <;> simp [sided, h]

theorem stored_plug_congr {t' : Tree K V} (h : (plug fs t).Stored due holds)
    (ht : t'.Stored due holds') (hh : t.handle = t'.handle) (hl : t.least due = t'.least due)
    (hf : ∀ i ∈ contextHandles fs, ∀ c, holds i c → holds' i c) :
    (plug fs t').Stored due holds' := by
  induction fs generalizing t t' with
  | nil => exact ht
  | cons f fs ih =>
    simp only [contextHandles_cons, List.cons_append, List.mem_cons, List.mem_append] at hf
    obtain ⟨hc, -, hs⟩ := Frame.stored_fill_iff.1 (contextStored_of_stored (t := f.fill t) h).1
    refine ih (show (plug fs (f.fill t)).Stored due holds from h)
      (show (f.fill t').Stored due holds' from ?_) rfl (Frame.least_fill_congr hl)
      fun i hi => hf i (.inr (.inr hi))
    refine Frame.stored_fill_iff.2 ⟨?_, ht, hs.frame fun i hi => hf i (.inr (.inl hi))⟩
    rw [← hh, ← hl]
    exact hf _ (.inl rfl) _ hc

end CritBit
