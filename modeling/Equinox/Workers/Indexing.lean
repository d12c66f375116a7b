import Equinox.Foundation.Run

/-! # The event index

An append is two reads and then a batch of two statements, which is atomic. The
reads are not part of it, and an update that finds no row does not fail. A
snapshot moves the cursor to wherever it was taken.
-/

namespace Equinox

open Foundation Prod List

namespace Indexing

inductive IndexedWrite where
  | duplicate
  | gap (expected : ℕ)
  | applied
  | failed
  deriving DecidableEq, Repr

/-- How far a call of an append has got. Once it has read the cursor, it has the next sequence. -/
inductive Call where
  | idle
  | checked (id sequence : ℕ)
  | ready (id sequence : ℕ) (current : Option ℕ) (expected : sequence = current.getD 0 + 1)

/-- The rows of one market and domain: the ids and sequences of its events, and its cursor. -/
structure Index where
  events : List (ℕ × ℕ)
  cursor : Option ℕ
  calls : ℕ → Call

def Index.empty : Index := ⟨[], none, fun _ => .idle⟩

def Index.stores (s : Index) (id : ℕ) : Prop := id ∈ s.events.map fst

instance (s : Index) (id : ℕ) : Decidable (s.stores id) := by
  unfold Index.stores
  infer_instance

def Index.setCall (s : Index) (call : ℕ) (c : Call) : Index :=
  { s with calls := Function.update s.calls call c }

/-- The batch of an append that has read the cursor. A row whose key is taken rolls it back. -/
def Index.batch (s : Index) (id sequence : ℕ) (current : Option ℕ) : Index × IndexedWrite :=
  let events := (id, sequence) :: s.events
  if s.stores id then (s, .failed)
  else if s.cursor = current then ({ s with events, cursor := some sequence }, .applied)
  else if current = none then (s, .failed)
  else ({ s with events }, .failed)

inductive Step where
  | findDuplicate (call id sequence : ℕ)
  | readCursor (call : ℕ)
  | runBatch (call : ℕ)
  | replaceSnapshot (sequence : ℕ)
  deriving DecidableEq, Repr

/-- One statement or batch, and what the call returns if it ends there. -/
def Index.step (s : Index) : Step → Index × Option IndexedWrite
  | .findDuplicate call id sequence =>
    if sequence = 0 then (s, some .failed)
    else if s.stores id then (s, some .duplicate)
    else (s.setCall call (.checked id sequence), none)
  | .readCursor call =>
    match s.calls call with
    | .checked id sequence =>
      if h : sequence = s.cursor.getD 0 + 1 then
        (s.setCall call (.ready id sequence s.cursor h), none)
      else (s.setCall call .idle, some (.gap (s.cursor.getD 0 + 1)))
    | _ => (s, none)
  | .runBatch call =>
    match s.calls call with
    | .ready id sequence current _ =>
      ((s.batch id sequence current).1.setCall call .idle, some (s.batch id sequence current).2)
    | _ => (s, none)
  | .replaceSnapshot sequence => ({ s with cursor := some sequence }, none)

/-- What every step should do: leave distinct sequences, change nothing unless it is applied, and
never move the cursor back. -/
structure Orderly (s : Index) (a : Step) : Prop where
  distinct : ((s.step a).1.events.map snd).Nodup
  unchanged : ∀ result, (s.step a).2 = some result → result ≠ .applied →
    (s.step a).1.events = s.events ∧ (s.step a).1.cursor = s.cursor
  forward : s.cursor.getD 0 ≤ (s.step a).1.cursor.getD 0

/-- A batch with a new event finds the cursor that its call has read, unless that call has found
none, and a snapshot is not older than the cursor. -/
def Undisturbed (s : Index) : Step → Prop
  | .runBatch call => ∀ id sequence c h, s.calls call = .ready id sequence (some c) h →
      s.stores id ∨ s.cursor = some c
  | .replaceSnapshot sequence => s.cursor.getD 0 ≤ sequence
  | _ => True

/-- The events are up to the cursor. -/
structure Index.Valid (s : Index) : Prop where
  distinct : (s.events.map snd).Nodup
  le_cursor : ∀ event ∈ s.events, event.2 ≤ s.cursor.getD 0

variable {s : Index} {a : Step}

/-- An undisturbed step leaves the events and the cursor alone, or is the batch of an append that is
applied, or is a snapshot that is not older than the cursor. -/
theorem Index.step_cases (ha : Undisturbed s a) :
    ((s.step a).1.events = s.events ∧ (s.step a).1.cursor = s.cursor) ∨
    ((s.step a).2 = some .applied ∧ (s.step a).1.cursor = some (s.cursor.getD 0 + 1) ∧
      ∃ id, (s.step a).1.events = (id, s.cursor.getD 0 + 1) :: s.events) ∨
    ((s.step a).2 = none ∧ (s.step a).1.events = s.events ∧
      s.cursor.getD 0 ≤ (s.step a).1.cursor.getD 0) := by
  cases a with
  | findDuplicate call id sequence =>
    simp only [Index.step]
    split_ifs <;> exact .inl ⟨rfl, rfl⟩
  | readCursor call =>
    simp only [Index.step]
    split
    · split_ifs <;> exact .inl ⟨rfl, rfl⟩
    · exact .inl ⟨rfl, rfl⟩
  | runBatch call =>
    simp only [Index.step]
    split
    · rename_i id sequence current hseq hc
      subst hseq
      simp only [Index.batch]
      split_ifs with hs hcur hn
      · exact .inl ⟨rfl, rfl⟩
      · subst hcur
        exact .inr (.inl ⟨rfl, rfl, id, rfl⟩)
      · exact .inl ⟨rfl, rfl⟩
      · obtain ⟨c, rfl⟩ := Option.ne_none_iff_exists'.1 hn
        exact absurd (ha _ _ _ _ hc) (not_or.2 ⟨hs, hcur⟩)
    · exact .inl ⟨rfl, rfl⟩
  | replaceSnapshot sequence => exact .inr (.inr ⟨rfl, rfl, ha⟩)

theorem Index.Valid.step (h : s.Valid) (ha : Undisturbed s a) : (s.step a).1.Valid := by
  rcases Index.step_cases ha with ⟨he, hc⟩ | ⟨-, hc, id, he⟩ | ⟨-, he, hc⟩
  · refine ⟨?_, ?_⟩ <;> rw [he]
    · exact h.distinct
    · rw [hc]
      exact h.le_cursor
  · have hlt (event : ℕ × ℕ) (hm : event ∈ s.events) : event.2 < s.cursor.getD 0 + 1 :=
      Nat.lt_succ_of_le (h.le_cursor event hm)
    refine ⟨?_, ?_⟩ <;> rw [he]
    · refine nodup_cons.2 ⟨fun hm => ?_, h.distinct⟩
      obtain ⟨event, hm, heq⟩ := mem_map.1 hm
      exact absurd heq (hlt event hm).ne
    · rw [hc]
      rintro event (_ | ⟨_, hm⟩)
      · exact le_rfl
      · exact (hlt event hm).le
  · refine ⟨?_, ?_⟩ <;> rw [he]
    · exact h.distinct
    · exact fun event hm => (h.le_cursor event hm).trans hc

theorem Index.Valid.orderly_iff (h : s.Valid) (a : Step) : Orderly s a ↔ Undisturbed s a := by
  constructor
  · intro ho
    cases a with
    | runBatch call =>
      intro id sequence c _ hc
      by_contra hn
      rw [not_or] at hn
      have hu := ho.unchanged .failed
      simp only [Index.step, hc, Index.batch, if_neg hn.1, if_neg hn.2, reduceCtorEq] at hu
      exact absurd (hu rfl (by simp)).1 (cons_ne_self _ _)
    | replaceSnapshot sequence => exact ho.forward
    | _ => trivial
  · intro ha
    rcases Index.step_cases ha with ⟨he, hc⟩ | ⟨hr, hc, -⟩ | ⟨hr, -, hc⟩
    · exact ⟨(h.step ha).distinct, fun _ _ _ => ⟨he, hc⟩, hc ▸ le_rfl⟩
    · refine ⟨(h.step ha).distinct, fun result ho hne => ?_, hc ▸ Nat.le_succ _⟩
      exact absurd (Option.some.inj (ho.symm.trans hr)) hne
    · exact ⟨(h.step ha).distinct, by simp [hr], hc⟩

/-- Along any interleaving the index is orderly exactly if no batch and no snapshot is disturbed by
another call. -/
theorem indexing_orderly_iff (steps : List Step) :
    Always (fun s a => (s.step a).1) Orderly .empty steps ↔
      Always (fun s a => (s.step a).1) Undisturbed .empty steps :=
  Always.iff_of_invariant (I := Index.Valid) (fun _ a h => h.orderly_iff a)
    (fun _ _ h ha => h.step ha) ⟨nodup_nil, by simp [Index.empty]⟩

/-- Two events of sequence 2: both calls read the cursor at 1, the first is applied, and the second
stores its event although it fails. -/
theorem sequence_stored_twice :
    let steps : List Step := [.replaceSnapshot 1, .findDuplicate 1 20 2, .findDuplicate 2 21 2,
      .readCursor 1, .readCursor 2, .runBatch 1]
    let s := steps.foldl (fun s a => (s.step a).1) Index.empty
    (s.step (.runBatch 2)).2 = some .failed ∧ (s.step (.runBatch 2)).1.events.map snd = [2, 2] := by
  decide

end Indexing

end Equinox
