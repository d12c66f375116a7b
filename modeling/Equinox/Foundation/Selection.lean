import Mathlib

/-! # Selecting the least

A scan that keeps the element with the lesser key ends with a least one. If the
elements can be listed in ascending order of distinct keys, that is the head of
the list. In an ordered list, the elements that pass a monotone test come first.
A list that gave one element away is a selection of the list it was.
-/

namespace Foundation

open List Foundation Option

variable {α β κ ε : Type*} [LinearOrder κ] {key : α → κ} {S : Set α} {o : Option α} {a : α}

def lesser (key : α → κ) (best : Option α) (next : α) : Option α :=
  match best with
  | none => some next
  | some current => if key next < key current then some next else some current

/-- An element of a set with the least key, or none if the set is empty. -/
def Least (key : α → κ) (S : Set α) : Option α → Prop
  | none => S = ∅
  | some a => a ∈ S ∧ ∀ b ∈ S, key a ≤ key b

theorem least_none : Least key ∅ (none : Option α) := rfl

theorem Least.lesser (h : Least key S o) (a : α) :
    Least key (insert a S) (Foundation.lesser key o a) := by
  cases o with
  | none =>
    obtain rfl : S = ∅ := h
    exact ⟨Set.mem_insert _ _, by simp⟩
  | some c =>
    obtain ⟨hc, hle⟩ := h
    simp only [Foundation.lesser]
    split
    · rename_i hlt
      refine ⟨Set.mem_insert _ _, ?_⟩
      rintro b (rfl | hb)
      · exact le_rfl
      · exact hlt.le.trans (hle b hb)
    · rename_i hlt
      refine ⟨Set.mem_insert_of_mem _ hc, ?_⟩
      rintro b (rfl | hb)
      · exact not_lt.1 hlt
      · exact hle b hb

/-- One step of a scan that may skip an entry or fail at it. -/
def scanStep (key : α → κ) (f : β → Except ε (Option α)) (best : Option α) (x : β) :
    Except ε (Option α) :=
  (f x).map fun o => o.elim best (lesser key best)

theorem least_foldlM {f : β → Except ε (Option α)} {l : List β} (hf : ∀ x ∈ l, ∃ o, f x = .ok o)
    (h : Least key S o) : ∃ o', l.foldlM (scanStep key f) o = .ok o' ∧
      Least key {a | a ∈ S ∨ ∃ x ∈ l, f x = .ok (some a)} o' := by
  induction l generalizing S o with
  | nil => exact ⟨o, rfl, by simpa using h⟩
  | cons x l ih =>
    obtain ⟨ox, hx⟩ := hf x mem_cons_self
    have hl : ∀ y ∈ l, ∃ o, f y = .ok o := fun y hy => hf y (mem_cons_of_mem x hy)
    rw [foldlM_cons, scanStep, hx]
    cases ox with
    | none =>
      obtain ⟨o', ho', hle⟩ := ih hl h
      refine ⟨o', ho', ?_⟩
      simpa [hx] using hle
    | some c =>
      obtain ⟨o', ho', hle⟩ := ih hl (h.lesser c)
      refine ⟨o', ho', ?_⟩
      have hs : {a | a ∈ S ∨ ∃ y ∈ x :: l, f y = .ok (some a)} =
          {a | a ∈ insert c S ∨ ∃ y ∈ l, f y = .ok (some a)} := by
        ext a
        simp only [Set.mem_ofPred_eq, Set.mem_insert_iff, exists_mem_cons_iff, hx,
          Except.ok.injEq, some.injEq]
        tauto
      rw [hs]
      exact hle

/-- A scan that meets its elements in ascending order of a second key keeps the first of several
with the least key. -/
theorem foldlM_scanStep_lex {ι : Type*} [LinearOrder ι] {pos : α → ι} {f : β → Except ε (Option α)}
    {l : List β}
    (hl : l.Pairwise fun x y => ∀ a b, f x = .ok (some a) → f y = .ok (some b) → pos a < pos b)
    (ho : ∀ a, o = some a → ∀ x ∈ l, ∀ b, f x = .ok (some b) → pos a < pos b) :
    l.foldlM (scanStep key f) o = l.foldlM (scanStep (fun a => toLex (key a, pos a)) f) o := by
  induction l generalizing o with
  | nil => rfl
  | cons x l ih =>
    rw [pairwise_cons] at hl
    rw [foldlM_cons, foldlM_cons]
    cases hx : f x with
    | error e => simp [scanStep, hx, Except.map, bind, Except.bind]
    | ok ox =>
      cases ox with
      | none =>
        simp only [scanStep, hx, Except.map, Option.elim]
        exact ih hl.2 fun a ha y hy => ho a ha y (mem_cons_of_mem x hy)
      | some c =>
        have hs : lesser key o c = lesser (fun a => toLex (key a, pos a)) o c := by
          cases o with
          | none => rfl
          | some d =>
            have hpos : pos d < pos c := ho d rfl x mem_cons_self c hx
            have hlt : toLex (key c, pos c) < toLex (key d, pos d) ↔ key c < key d := by
              rw [Prod.Lex.toLex_lt_toLex]
              simp [not_lt.2 hpos.le]
            simp only [lesser, hlt]
        simp only [scanStep, hx, Except.map, Option.elim, ← hs]
        refine ih hl.2 fun a ha y hy b hb => ?_
        rcases o with _ | d
        · obtain rfl : c = a := by simpa [lesser] using ha
          exact hl.1 y hy c b hx hb
        · simp only [lesser] at ha
          split at ha
          · obtain rfl := some.inj ha
            exact hl.1 y hy _ b hx hb
          · obtain rfl := some.inj ha
            exact ho _ rfl y (mem_cons_of_mem x hy) b hb

theorem Least.eq_head? {l : List α} (h : Least key {a | a ∈ l} o)
    (hs : l.Pairwise fun x y => key x < key y) : o = l.head? := by
  cases o with
  | none =>
    have hn : l = [] := eq_nil_iff_forall_not_mem.2 fun a ha =>
      Set.notMem_empty a (h ▸ ha)
    rw [hn]
    rfl
  | some a =>
    obtain ⟨ha, hle⟩ := h
    cases l with
    | nil => simp at ha
    | cons b l =>
      rcases mem_cons.1 ha with rfl | hal
      · rfl
      · have hlt := (pairwise_cons.1 hs).1 a hal
        exact absurd (hle b mem_cons_self) (not_le.2 hlt)

theorem mem_takeWhile_iff {p : α → Bool} {l : List α}
    (h : l.Pairwise fun b c => p c = true → p b = true) :
    a ∈ l.takeWhile p ↔ a ∈ l ∧ p a = true := by
  induction l with
  | nil => simp
  | cons b l ih =>
    rw [pairwise_cons] at h
    by_cases hb : p b = true
    · rw [takeWhile_cons_of_pos hb, mem_cons, mem_cons, ih h.2, or_and_right]
      refine or_congr_left ⟨fun heq => ⟨heq, heq ▸ hb⟩, And.left⟩
    · rw [takeWhile_cons_of_neg hb]
      refine iff_of_false not_mem_nil ?_
      rintro ⟨hmem, ha⟩
      rcases mem_cons.1 hmem with rfl | hmem
      · exact hb ha
      · exact hb (h.1 a hmem ha)

theorem takeWhile_eq_filter {p : α → Bool} {l : List α}
    (h : l.Pairwise fun b c => p c = true → p b = true) : l.takeWhile p = l.filter p := by
  induction l with
  | nil => rfl
  | cons b l ih =>
    rw [pairwise_cons] at h
    by_cases hb : p b = true
    · rw [takeWhile_cons_of_pos hb, filter_cons_of_pos hb, ih h.2]
    · rw [takeWhile_cons_of_neg hb, filter_cons_of_neg hb, eq_comm, filter_eq_nil_iff]
      exact fun c hc hpc => hb (h.1 c hc hpc)

section Exchange

variable {f : α → Option α} {l l' : List α} {x : α}

theorem filterMap_eq_self (h : ∀ a ∈ l, f a = some a) : l.filterMap f = l := by
  rw [filterMap_congr h, filterMap_some]

theorem perm_filterMap_of_exchange (hx : x ∈ l) (hnd : l.Nodup)
    (ho : ∀ a ∈ l, a ≠ x → f a = some a) (h : (l' ++ [x]).Perm (l ++ (f x).toList)) :
    l'.Perm (l.filterMap f) := by
  obtain ⟨l₁, l₂, rfl⟩ := append_of_mem hx
  have hx' : x ∉ l₁ ++ l₂ := (nodup_cons.1 (nodup_middle.1 hnd)).1
  have hk : (l₁ ++ l₂).filterMap f = l₁ ++ l₂ := by
    apply filterMap_eq_self
    intro a ha
    exact ho a (perm_middle.mem_iff.2 (.tail _ ha)) fun heq => hx' (heq ▸ ha)
  have hm : ((l₁ ++ x :: l₂).filterMap f).Perm ((f x).toList ++ (l₁ ++ l₂)) := by
    refine (perm_middle.filterMap f).trans ?_
    cases hfx : f x with
    | none => rw [filterMap_cons_none hfx, hk]; exact .refl _
    | some y => rw [filterMap_cons_some hfx, hk]; exact .refl _
  have hl : (x :: l').Perm (x :: (l₁ ++ l₂ ++ (f x).toList)) :=
    (perm_append_singleton x l').symm.trans (h.trans (perm_middle.append_right _))
  exact hl.cons_inv.trans (perm_append_comm.trans hm.symm)

end Exchange

end Foundation
