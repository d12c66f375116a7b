import Mathlib

/-! # Fenced keeper work

A keeper takes a lease, reserves its idempotency key, works, and records the
outcome if it still holds the lease. Each statement is atomic and the calls
interleave in any way; a call that crashes takes no further step. The row of the
lease is never deleted, so that its fence only grows.
-/

namespace Equinox.Fencing

open Function

structure Lease where
  holder : ℕ
  fence : ℕ
  expiresAt : ℕ

inductive Status where
  | pending | succeeded | failed
  deriving DecidableEq, Repr

structure Operation where
  owner : ℕ
  status : Status
  expiresAt : ℕ

structure DurableKeeperRequest where
  holder : ℕ
  idempotencyKey : ℕ
  now : ℕ
  leaseTtlMs : ℕ
  idempotencyTtlMs : ℕ

/-- How far a call has got. -/
inductive Call where
  | idle
  | leased (request : DurableKeeperRequest) (lease : Lease)
  | working (request : DurableKeeperRequest) (lease : Lease)
  | finishing (request : DurableKeeperRequest) (lease : Lease) (succeeded : Bool)
  | releasing (lease : Lease)

inductive KeyEvent where
  | started | finished | deleted

/-- The row of one lease, the rows of the operations and the calls under way, with the fences that
were granted and what happened to each key, the newest first. -/
structure Store where
  lease : Option Lease
  operations : ℕ → Option Operation
  calls : ℕ → Call
  granted : List ℕ
  events : ℕ → List KeyEvent

namespace Store

def empty : Store := ⟨none, fun _ => none, fun _ => .idle, [], fun _ => []⟩

variable (s : Store) (call : ℕ) (request : DurableKeeperRequest) (lease : Lease)

def fence : ℕ := s.lease.elim 0 Lease.fence

/-- Somebody's lease has not expired. -/
def taken (now : ℕ) : Bool := s.lease.any (now < ·.expiresAt)

def holds : Bool :=
  s.lease.any fun row => row.holder = lease.holder && row.fence = lease.fence

def setCall (c : Call) : Store := { s with calls := update s.calls call c }

def setExpiry (expiresAt : ℕ) : Store :=
  { s with lease := s.lease.map fun row => { row with expiresAt } }

def setRow (key : ℕ) (row : Operation) (e : KeyEvent) : Store :=
  { s with
    operations := update s.operations key (some row)
    events := update s.events key (e :: s.events key) }

def acquire : Store :=
  if request.leaseTtlMs = 0 ∨ s.taken request.now then s
  else
    let lease : Lease := ⟨request.holder, s.fence + 1, request.now + request.leaseTtlMs⟩
    { s with lease := some lease, granted := lease.fence :: s.granted }.setCall call
      (.leased request lease)

def renew (ttl now : ℕ) : Store :=
  if ttl ≠ 0 ∧ s.holds lease ∧ s.taken now then s.setExpiry (now + ttl) else s

def release : Store := if s.holds lease then s.setExpiry 0 else s

/-- The work starts as soon as its key is reserved. -/
def reserve : Store :=
  if request.idempotencyTtlMs = 0 ∨ (s.operations request.idempotencyKey).isSome then
    s.setCall call (.releasing lease)
  else
    (s.setRow request.idempotencyKey
      ⟨request.holder, .pending, request.now + request.idempotencyTtlMs⟩ .started).setCall call
        (.working request lease)

/-- An outcome that could not be recorded is recorded once more, as a failure. -/
def finish (succeeded : Bool) : Store :=
  match (s.operations request.idempotencyKey).filter fun operation =>
    operation.owner = request.holder && operation.status = .pending && s.holds lease &&
      s.taken request.now with
  | some operation =>
    (s.setRow request.idempotencyKey
      { operation with status := if succeeded then .succeeded else .failed } .finished).setCall call
        (.releasing lease)
  | none => s.setCall call (if succeeded then .finishing request lease false else .releasing lease)

/-- The next statement of a call. -/
def advance (worked : Bool) : Store :=
  match s.calls call with
  | .idle => s
  | .leased request lease => s.reserve call request lease
  | .working request lease => s.setCall call (.finishing request lease worked)
  | .finishing request lease succeeded => s.finish call request lease succeeded
  | .releasing lease => (s.release lease).setCall call .idle

/-- Expired operations are deleted unless they are pending. -/
def cleanup (now : ℕ) : Store :=
  let gone key := (s.operations key).any fun operation =>
    operation.expiresAt ≤ now && operation.status ≠ .pending
  { s with
    operations := fun key => if gone key then none else s.operations key
    events := fun key => if gone key then .deleted :: s.events key else s.events key }

end Store

inductive Step where
  | acquire (call : ℕ) (request : DurableKeeperRequest)
  | advance (call : ℕ) (worked : Bool)
  | renew (lease : Lease) (ttl now : ℕ)
  | cleanup (now : ℕ)

def Store.step (s : Store) : Step → Store
  | .acquire call request => s.acquire call request
  | .advance call worked => s.advance call worked
  | .renew lease ttl now => s.renew lease ttl now
  | .cleanup now => s.cleanup now

/-- What happened to a key whose row is pending, finished or missing: the work has started only
without a row, and only a finished row was deleted. -/
inductive Lifecycle : Option Bool → List KeyEvent → Prop
  | nil : Lifecycle none []
  | started {es : List KeyEvent} : Lifecycle none es → Lifecycle (some true) (.started :: es)
  | finished {es : List KeyEvent} :
    Lifecycle (some true) es → Lifecycle (some false) (.finished :: es)
  | deleted {es : List KeyEvent} : Lifecycle (some false) es → Lifecycle none (.deleted :: es)

def Operation.isPending (operation : Operation) : Bool := operation.status = .pending

structure Fenced (s : Store) : Prop where
  increasing : s.granted.Pairwise (· > ·)
  le_fence : ∀ n ∈ s.granted, n ≤ s.fence
  keys : ∀ key, Lifecycle ((s.operations key).map Operation.isPending) (s.events key)

namespace Fenced

variable {s : Store}

theorem setExpiry (h : Fenced s) (expiresAt : ℕ) : Fenced (s.setExpiry expiresAt) := by
  refine ⟨h.increasing, fun n hn => (h.le_fence n hn).trans_eq ?_, h.keys⟩
  cases hl : s.lease <;> simp [Store.fence, Store.setExpiry, hl]

theorem setCall (h : Fenced s) (call : ℕ) (c : Call) : Fenced (s.setCall call c) :=
  ⟨h.increasing, h.le_fence, h.keys⟩

theorem setRow (h : Fenced s) (key : ℕ) (row : Operation) (e : KeyEvent)
    (hl : ∀ es, Lifecycle ((s.operations key).map Operation.isPending) es →
      Lifecycle (some row.isPending) (e :: es)) : Fenced (s.setRow key row e) := by
  refine ⟨h.increasing, h.le_fence, fun k => ?_⟩
  rcases eq_or_ne k key with rfl | hk
  · simpa [Store.setRow] using hl _ (h.keys k)
  · simpa [Store.setRow, hk] using h.keys k

theorem acquire (h : Fenced s) (call : ℕ) (request : DurableKeeperRequest) :
    Fenced (s.acquire call request) := by
  have hlt (n : ℕ) (hn : n ∈ s.granted) : n < s.fence + 1 := Nat.lt_succ_of_le (h.le_fence n hn)
  unfold Store.acquire
  split
  · exact h
  · refine ⟨List.pairwise_cons.2 ⟨hlt, h.increasing⟩, ?_, h.keys⟩
    rintro n (_ | ⟨_, hn⟩)
    · exact le_rfl
    · exact (hlt n hn).le

theorem advance (h : Fenced s) (call : ℕ) (worked : Bool) : Fenced (s.advance call worked) := by
  unfold Store.advance
  split
  · exact h
  · unfold Store.reserve
    split
    · exact h.setCall _ _
    · rename_i request lease _ hn
      have hr : s.operations request.idempotencyKey = none := by simp_all
      refine (h.setRow _ _ _ fun es he => ?_).setCall _ _
      rw [hr] at he
      exact he.started
  · exact h.setCall _ _
  · unfold Store.finish
    split
    · rename_i succeeded _ _ operation ho
      obtain ⟨hr, hp⟩ := Option.filter_eq_some_iff.1 ho
      have hs : operation.isPending = true := by simp_all [Operation.isPending]
      refine (h.setRow _ _ _ fun es he => ?_).setCall _ _
      rw [hr, Option.map_some, hs] at he
      cases succeeded <;> exact he.finished
    · exact h.setCall _ _
  · unfold Store.release
    split
    · exact (h.setExpiry 0).setCall _ _
    · exact h.setCall _ _

theorem cleanup (h : Fenced s) (now : ℕ) : Fenced (s.cleanup now) := by
  refine ⟨h.increasing, h.le_fence, fun key => ?_⟩
  have hk := h.keys key
  cases hr : s.operations key with
  | none => simpa [Store.cleanup, hr] using hk
  | some operation =>
    rw [hr, Option.map_some] at hk
    by_cases hd : operation.expiresAt ≤ now ∧ operation.status ≠ .pending
    · have hs : operation.isPending = false := decide_eq_false hd.2
      rw [hs] at hk
      simpa [Store.cleanup, hr, hd] using hk.deleted
    · simpa [Store.cleanup, hr, hd] using hk

theorem step (h : Fenced s) (a : Step) : Fenced (s.step a) := by
  cases a with
  | acquire call request => exact h.acquire call request
  | advance call worked => exact h.advance call worked
  | renew lease ttl now =>
    simp only [Store.step, Store.renew]
    split
    · exact h.setExpiry _
    · exact h
  | cleanup now => exact h.cleanup now

end Fenced

/-- However the calls interleave, the fences that are granted increase, every key goes through its
lifecycle, and a call whose lease has been granted again records no outcome. -/
theorem keeper_fencing (steps : List Step) :
    let s := steps.foldl Store.step .empty
    s.granted.Pairwise (· > ·) ∧
    (∀ key, Lifecycle ((s.operations key).map Operation.isPending) (s.events key)) ∧
    ∀ call request lease succeeded n, n ∈ s.granted → lease.fence < n →
      (s.finish call request lease succeeded).operations = s.operations ∧
      (s.finish call request lease succeeded).lease = s.lease := by
  intro s
  have h : Fenced s :=
    List.foldlRecOn steps Store.step ⟨.nil, by simp [Store.empty], fun _ => .nil⟩
      fun _ hs a _ => hs.step a
  refine ⟨h.increasing, h.keys, fun call request lease succeeded n hn hlt => ?_⟩
  -- No fence that was granted is above the row's, so the row is not that of an older lease.
  have hl : s.holds lease = false := by
    have hle := h.le_fence n hn
    cases hr : s.lease with
    | none => simp [Store.holds, hr]
    | some row =>
      have : row.fence ≠ lease.fence := by
        simp only [Store.fence, hr, Option.elim_some] at hle
        omega
      simp [Store.holds, hr, this]
  have hf (o : Option Operation) : (o.filter fun operation => operation.owner = request.holder &&
      operation.status = .pending && s.holds lease && s.taken request.now) = none := by
    cases o <;> simp [hl]
  simp only [Store.finish, hf]
  exact ⟨rfl, rfl⟩

def sampleRequest (holder now : ℕ) : DurableKeeperRequest := ⟨holder, 9, now, 10, 100⟩

/-- A call works past the end of its lease, which another holder then takes. -/
def overtaken : List Step :=
  [.acquire 0 (sampleRequest 1 0), .advance 0 true, .advance 0 true,
    .acquire 1 (sampleRequest 2 20)]

theorem keeper_fencing_of_overtaken :
    let s := overtaken.foldl Store.step .empty
    s.granted = [2, 1] ∧ s.calls 0 = .finishing (sampleRequest 1 0) ⟨1, 1, 10⟩ true ∧
    (s.advance 0 true).operations = s.operations := by
  intro s
  obtain ⟨-, -, hf⟩ := keeper_fencing overtaken
  have hc : s.calls 0 = .finishing (sampleRequest 1 0) ⟨1, 1, 10⟩ true := rfl
  refine ⟨rfl, hc, ?_⟩
  simp only [Store.advance, hc]
  exact (hf 0 _ ⟨1, 1, 10⟩ true 2 (by decide +kernel) (by decide)).1

end Equinox.Fencing
