import Equinox.Foundation.Sums

/-! # Custody

What a custodian of deposits is for, apart from trading: holders of numbered
accounts have claims on a vault, deposits reach an account through an inbox
counter and leave it through a request counter, and payouts are made from a
copy of the accounts that lags behind. Every event acts on one account.
-/

namespace Custody

open Foundation Function

/-- A numbered account. The counters say how much of its holder's inbox was credited to it and how
much was requested from it. -/
structure Claim (α : Type*) where
  holder : Option α
  collateral : ℤ
  credited : ℕ
  requested : ℕ

def Claim.vacant {α : Type*} : Claim α := ⟨none, 0, 0, 0⟩

/-- The totals count what holders have done since the beginning. -/
@[ext]
structure State (α : Type*) where
  claims : ℕ → Claim α
  committed : ℕ → Claim α
  ledger : ℤ
  deposited : α → ℕ
  credited : α → ℕ
  requested : α → ℕ
  paid : α → ℕ

inductive Event (α : Type*) where
  | opened (i : ℕ) (a : α)
  | closed (i : ℕ)
  | deposited (i n : ℕ)
  | withdrawn (i n : ℕ)
  | inboxed (a : α) (n : ℕ)
  | credited (i : ℕ) (a : α) (total : ℕ)
  | requested (i : ℕ) (a : α) (n : ℕ)
  | paid (i : ℕ) (a : α)
  | ledgerLost
  | idle

variable {α : Type*} [DecidableEq α]

namespace Event

/-- When an event can happen, with `count` accounts. -/
def Allowed (count : ℕ) (s : State α) : Event α → Prop
  | opened i a => i < count ∧ (s.claims i).holder = none ∧
      ∀ j < count, (s.claims j).holder ≠ some a
  | closed i => i < count ∧ (s.claims i).holder.isSome
  | deposited i _ => i < count ∧ (s.claims i).holder.isSome
  | withdrawn i n => i < count ∧ (s.claims i).holder.isSome ∧ n ≤ (s.claims i).collateral
  | inboxed _ _ => True
  | credited i a total => i < count ∧ (s.claims i).holder = some a ∧
      (s.claims i).credited ≤ total ∧ total ≤ s.deposited a
  | requested i a n => i < count ∧ (s.claims i).holder = some a ∧ n ≤ (s.claims i).collateral
  | paid i a => (s.committed i).holder = some a ∧ s.paid a ≤ (s.committed i).requested
  | ledgerLost => True
  | idle => True

def apply (s : State α) : Event α → State α
  | opened i a => { s with claims := update s.claims i ⟨some a, 0, 0, 0⟩ }
  | closed i => { s with claims := update s.claims i .vacant }
  | deposited i n => { s with
      claims := update s.claims i
        { s.claims i with collateral := (s.claims i).collateral + n }
      ledger := s.ledger + n }
  | withdrawn i n => { s with
      claims := update s.claims i
        { s.claims i with collateral := (s.claims i).collateral - n }
      ledger := s.ledger - n }
  | inboxed a n => { s with deposited := update s.deposited a (s.deposited a + n) }
  | credited i a total => { s with
      claims := update s.claims i { s.claims i with
        collateral := (s.claims i).collateral + (total - (s.claims i).credited : ℕ)
        credited := total }
      ledger := s.ledger + (total - (s.claims i).credited : ℕ)
      credited := update s.credited a (s.credited a + (total - (s.claims i).credited)) }
  | requested i a n => { s with
      claims := update s.claims i { s.claims i with
        collateral := (s.claims i).collateral - n
        requested := (s.claims i).requested + n }
      ledger := s.ledger - n
      requested := update s.requested a (s.requested a + n) }
  | paid i a => { s with paid := update s.paid a (s.committed i).requested }
  | ledgerLost => { s with ledger := 0 }
  | idle => s

end Event

/-- An event happens; meanwhile some accounts may be copied. -/
def Step (count : ℕ) (e : Event α) (s s' : State α) : Prop :=
  e.Allowed count s ∧ ∃ committed, s' = { e.apply s with committed := committed } ∧
    ∀ i, committed i = s.committed i ∨ committed i = (e.apply s).claims i

/-! ## Holders -/

/-- Accounts out of range or without a holder are vacant, and no one holds two. -/
structure Held (count : ℕ) (claims : ℕ → Claim α) : Prop where
  lt : ∀ i, (claims i).holder.isSome → i < count
  vacant : ∀ i, (claims i).holder = none → claims i = .vacant
  unique : ∀ i j a, (claims i).holder = some a → (claims j).holder = some a → i = j

variable {count i : ℕ} {a : α} {s s' : State α} {e : Event α} {claims : ℕ → Claim α} {c : Claim α}

section

omit [DecidableEq α]

theorem Held.update (h : Held count claims) (hlt : c.holder.isSome → i < count)
    (hv : c.holder = none → c = .vacant)
    (hu : ∀ a, c.holder = some a → ∀ j ≠ i, (claims j).holder ≠ some a) :
    Held count (update claims i c) := by
  constructor
  · intro j hj
    rcases eq_or_ne j i with rfl | hne
    · exact hlt (by rwa [update_self] at hj)
    · exact h.lt j (by rwa [update_of_ne hne] at hj)
  · intro j hj
    rcases eq_or_ne j i with rfl | hne
    · rw [update_self] at hj ⊢
      exact hv hj
    · rw [update_of_ne hne] at hj ⊢
      exact h.vacant j hj
  · intro j k b hj hk
    by_cases hji : j = i <;> by_cases hki : k = i
    · rw [hji, hki]
    · rw [hji, update_self] at hj
      rw [update_of_ne hki] at hk
      exact absurd hk (hu b hj k hki)
    · rw [hki, update_self] at hk
      rw [update_of_ne hji] at hj
      exact absurd hj (hu b hk j hji)
    · rw [update_of_ne hji] at hj
      rw [update_of_ne hki] at hk
      exact h.unique j k b hj hk

theorem Held.absent (h : Held count claims) (hn : ∀ j < count, (claims j).holder ≠ some a) (j : ℕ) :
    (claims j).holder ≠ some a := fun hj => hn j (h.lt j (by simp [hj])) hj

theorem Held.changed (h : Held count claims) (hi : (claims i).holder.isSome)
    (hc : c.holder = (claims i).holder) : Held count (Function.update claims i c) := by
  refine h.update (fun _ => h.lt i hi) (fun hn => ?_) fun a ha j hne hj => ?_
  · rw [← hc, hn] at hi
    cases hi
  · exact hne (h.unique j i a hj (hc ▸ ha))

end

theorem Held.step (h : Held count s.claims) (hs : Step count e s s') : Held count s'.claims := by
  obtain ⟨ha, _, rfl, -⟩ := hs
  cases e with
  | opened i a =>
    refine h.update (fun _ => ha.1) nofun ?_
    rintro _ ⟨⟩ j -
    exact h.absent ha.2.2 j
  | closed i => exact h.update nofun (fun _ => rfl) nofun
  | deposited i n => exact h.changed ha.2 rfl
  | withdrawn i n => exact h.changed ha.2.1 rfl
  | credited i a total => exact h.changed (by simp [ha.2.1]) rfl
  | requested i a n => exact h.changed (by simp [ha.2.1]) rfl
  | inboxed | paid | ledgerLost | idle => exact h

/-! ## Counters -/

/-- A counter of the accounts tells what its holder has moved in total. -/
structure Tracks (claims : ℕ → Claim α) (counter : Claim α → ℕ) (total : α → ℕ) : Prop where
  held : ∀ i a, (claims i).holder = some a → counter (claims i) = total a
  absent : ∀ a, (∀ i, (claims i).holder ≠ some a) → total a = 0

variable {counter : Claim α → ℕ} {total : α → ℕ}

section

omit [DecidableEq α]

theorem Tracks.update {total' : α → ℕ} (h : Tracks claims counter total)
    (hc : ∀ b, c.holder = some b → counter c = total' b)
    (ho : ∀ j b, j ≠ i → (claims j).holder = some b → total' b = total b)
    (hz : ∀ b, c.holder ≠ some b → (∀ j ≠ i, (claims j).holder ≠ some b) → total' b = 0) :
    Tracks (update claims i c) counter total' := by
  constructor
  · intro j b hj
    rcases eq_or_ne j i with rfl | hne
    · rw [update_self] at hj ⊢
      exact hc b hj
    · rw [update_of_ne hne] at hj ⊢
      rw [ho j b hne hj]
      exact h.held j b hj
  · intro b hb
    refine hz b (by simpa using hb i) fun j hne => ?_
    simpa [update_of_ne hne] using hb j

theorem Tracks.absent_of_ne (h : Tracks claims counter total) (hi : (claims i).holder ≠ some a)
    (hn : ∀ j ≠ i, (claims j).holder ≠ some a) : total a = 0 := by
  refine h.absent a fun j => ?_
  rcases eq_or_ne j i with rfl | hne
  · exact hi
  · exact hn j hne

theorem Tracks.opened (h : Tracks claims counter total) (hh : Held count claims)
    (hno : (claims i).holder = none) (hn : ∀ j < count, (claims j).holder ≠ some a)
    (hc : c.holder = some a) (hz : counter c = 0) :
    Tracks (Function.update claims i c) counter total := by
  refine h.update (fun b hb => ?_) (fun _ _ _ _ => rfl) fun b _ => h.absent_of_ne (by simp [hno])
  obtain rfl : a = b := by simpa [hc] using hb
  rw [hz, h.absent a (hh.absent hn)]

theorem Tracks.closed (h : Tracks claims counter total) (hz : counter (claims i) = 0) :
    Tracks (Function.update claims i .vacant) counter total := by
  refine h.update nofun (fun _ _ _ _ => rfl) fun b _ hn => ?_
  by_cases hi : (claims i).holder = some b
  · rw [← h.held i b hi, hz]
  · exact h.absent_of_ne hi hn

theorem Tracks.changed (h : Tracks claims counter total) (hc : c.holder = (claims i).holder)
    (hs : counter c = counter (claims i)) : Tracks (Function.update claims i c) counter total := by
  refine h.update (fun b hb => ?_) (fun _ _ _ _ => rfl) fun b hb => h.absent_of_ne (hc ▸ hb)
  rw [hs, h.held i b (hc ▸ hb)]

end

theorem Tracks.raised {n : ℕ} (h : Tracks claims counter total) (hh : Held count claims)
    (hi : (claims i).holder = some a) (hc : c.holder = some a)
    (hadd : counter c = counter (claims i) + n) :
    Tracks (Function.update claims i c) counter (Function.update total a (total a + n)) := by
  refine h.update (fun b hb => ?_) (fun j b hne hj => ?_) fun b hb hn => ?_
  · obtain rfl : a = b := by simpa [hc] using hb
    rw [update_self, hadd, h.held i a hi]
  · refine update_of_ne ?_ _ _
    rintro rfl
    exact hne (hh.unique j i b hj hi)
  · rw [hc] at hb
    rw [update_of_ne fun hba => hb (by rw [hba]), h.absent_of_ne (by rwa [hi]) hn]

/-- The inbox counters tell what was credited, unless an account is closed with one that is not
zero. -/
theorem Tracks.credited_step (h : Tracks s.claims Claim.credited s.credited)
    (hh : Held count s.claims) (hs : Step count e s s')
    (hc : ∀ i, e = .closed i → (s.claims i).credited = 0) :
    Tracks s'.claims Claim.credited s'.credited := by
  obtain ⟨ha, _, rfl, -⟩ := hs
  cases e with
  | opened i a => exact h.opened hh ha.2.1 ha.2.2 rfl rfl
  | closed i => exact h.closed (hc i rfl)
  | deposited i n => exact h.changed rfl rfl
  | withdrawn i n => exact h.changed rfl rfl
  | credited i a total =>
    refine h.raised hh ha.2.1 ha.2.1 ?_
    have := ha.2.2.1
    dsimp only
    omega
  | requested i a n => exact h.changed rfl rfl
  | inboxed | paid | ledgerLost | idle => exact h

/-- The request counters tell what was requested, unless an account is closed with one that is not
zero. -/
theorem Tracks.requested_step (h : Tracks s.claims Claim.requested s.requested)
    (hh : Held count s.claims) (hs : Step count e s s')
    (hc : ∀ i, e = .closed i → (s.claims i).requested = 0) :
    Tracks s'.claims Claim.requested s'.requested := by
  obtain ⟨ha, _, rfl, -⟩ := hs
  cases e with
  | opened i a => exact h.opened hh ha.2.1 ha.2.2 rfl rfl
  | closed i => exact h.closed (hc i rfl)
  | deposited i n => exact h.changed rfl rfl
  | withdrawn i n => exact h.changed rfl rfl
  | credited i a total => exact h.changed rfl rfl
  | requested i a n => exact h.raised hh ha.2.1 ha.2.1 rfl
  | inboxed | paid | ledgerLost | idle => exact h

/-! ## Bounds -/

/-- A counter of the accounts never passes a total of its holder. -/
def Bounded (claims : ℕ → Claim α) (counter : Claim α → ℕ) (total : α → ℕ) : Prop :=
  ∀ i a, (claims i).holder = some a → counter (claims i) ≤ total a

omit [DecidableEq α] in
theorem Bounded.update (h : Bounded claims counter total)
    (hc : ∀ a, c.holder = some a → counter c ≤ total a) :
    Bounded (update claims i c) counter total := by
  intro j a hj
  rcases eq_or_ne j i with rfl | hne
  · rw [update_self] at hj ⊢
    exact hc a hj
  · rw [update_of_ne hne] at hj ⊢
    exact h j a hj

theorem le_update_add (total : α → ℕ) (a b : α) (n : ℕ) :
    total b ≤ update total a (total a + n) b := by
  rcases eq_or_ne b a with rfl | hne
  · simp
  · rw [update_of_ne hne]

omit [DecidableEq α] in
theorem Bounded.mono {total' : α → ℕ} (h : Bounded claims counter total)
    (hle : ∀ a, total a ≤ total' a) : Bounded claims counter total' :=
  fun i a hi => (h i a hi).trans (hle a)

omit [DecidableEq α] in
theorem Tracks.total_le {bound : α → ℕ} (h : Tracks claims counter total)
    (hb : Bounded claims counter bound) (a : α) : total a ≤ bound a := by
  by_cases hi : ∃ i, (claims i).holder = some a
  · obtain ⟨i, hi⟩ := hi
    rw [← h.held i a hi]
    exact hb i a hi
  · push Not at hi
    rw [h.absent a hi]
    exact Nat.zero_le _

theorem Bounded.credited_step (h : Bounded s.claims Claim.credited s.deposited)
    (hs : Step count e s s') : Bounded s'.claims Claim.credited s'.deposited := by
  obtain ⟨hal, _, rfl, -⟩ := hs
  cases e with
  | opened i a => exact h.update fun _ _ => Nat.zero_le _
  | closed i => exact h.update fun _ _ => Nat.zero_le _
  | deposited i n => exact h.update fun a ha => h i a ha
  | withdrawn i n => exact h.update fun a ha => h i a ha
  | credited i a total =>
    refine h.update fun b hb => ?_
    obtain rfl : a = b := by simpa [hal.2.1] using hb
    exact hal.2.2.2
  | requested i a n => exact h.update fun a ha => h i a ha
  | inboxed a n => exact h.mono (le_update_add s.deposited a · n)
  | paid | ledgerLost | idle => exact h

/-- No account, nor any copy of one, shows more requests than its holder made, and no more was
paid. -/
structure Covered (s : State α) : Prop where
  claims : Bounded s.claims Claim.requested s.requested
  committed : Bounded s.committed Claim.requested s.requested
  paid : ∀ a, s.paid a ≤ s.requested a

theorem Covered.step (h : Covered s) (hs : Step count e s s') : Covered s' := by
  obtain ⟨hal, committed, rfl, hco⟩ := hs
  have hc : Bounded (e.apply s).claims Claim.requested (e.apply s).requested := by
    cases e with
    | opened i a => exact h.claims.update fun _ _ => Nat.zero_le _
    | closed i => exact h.claims.update fun _ _ => Nat.zero_le _
    | deposited i n => exact h.claims.update fun a ha => h.claims i a ha
    | withdrawn i n => exact h.claims.update fun a ha => h.claims i a ha
    | credited i a total => exact h.claims.update fun a ha => h.claims i a ha
    | requested i a n =>
      refine (h.claims.mono (le_update_add s.requested a · n)).update fun b hb => ?_
      obtain rfl : a = b := by simpa [hal.2.1] using hb
      have := h.claims i a hal.2.1
      rw [update_self]
      dsimp only
      omega
    | inboxed | paid | ledgerLost | idle => exact h.claims
  have hm (a : α) : s.requested a ≤ (e.apply s).requested a := by
    cases e with
    | requested i b n => exact le_update_add s.requested b a n
    | _ => exact le_rfl
  refine ⟨hc, fun i a hi => ?_, fun a => ?_⟩
  · dsimp only at hi ⊢
    rcases hco i with heq | heq
    · rw [heq] at hi ⊢
      exact (h.committed i a hi).trans (hm a)
    · rw [heq] at hi ⊢
      exact hc i a hi
  · cases e with
    | paid i b =>
      change update s.paid b (s.committed i).requested a ≤ s.requested a
      rcases eq_or_ne a b with rfl | hne
      · rw [update_self]
        exact h.committed i a hal.1
      · rw [update_of_ne hne]
        exact h.paid a
    | _ => exact (h.paid a).trans (hm a)

/-! ## The ledger -/

/-- The ledger is the sum of the collateral of all accounts. -/
def Balanced (count : ℕ) (s : State α) : Prop :=
  s.ledger = ∑ i ∈ Finset.range count, (s.claims i).collateral

theorem Balanced.step (h : Balanced count s) (hh : Held count s.claims) (hs : Step count e s s')
    (hc : ∀ i, e = .closed i → (s.claims i).collateral = 0) (hl : e ≠ .ledgerLost) :
    Balanced count s' := by
  obtain ⟨ha, _, rfl, -⟩ := hs
  unfold Balanced at h ⊢
  cases e with
  | opened i a =>
    simp only [Event.apply, sum_range_update _ Claim.collateral _ ha.1,
      hh.vacant i ha.2.1, Claim.vacant]
    omega
  | closed i =>
    simp only [Event.apply, sum_range_update _ Claim.collateral _ ha.1, hc i rfl, Claim.vacant]
    omega
  | deposited i n | withdrawn i n | credited i a total | requested i a n =>
    simp only [Event.apply, sum_range_update _ Claim.collateral _ ha.1]
    omega
  | ledgerLost => exact absurd rfl hl
  | inboxed | paid | idle => exact h

end Custody
