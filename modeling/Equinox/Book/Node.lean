import Equinox.CritBit.Tree
import Equinox.Foundation.Machine

/-! # Book records

Order leaves, inner nodes and the integer keys they are sorted by. A key packs
a normalized price above the placement sequence, so that the ascending order of
keys is price-time priority on both sides of the book.
-/

namespace Equinox

open Foundation CritBit Nat

inductive EquinoxError where
  | marketNotWritable | invalidMarketLayout | marketAlreadyInitialized | marketNotInitialized
  | oracleUnavailable | invalidInstruction | invalidSeat | seatOccupied | seatsFull | seatNotEmpty
  | riskViolation | arithmeticOverflow | unsupportedInProduction | invalidSettlementScratch
  | magicBlockInvalidAccount | magicBlockAlreadyDelegated | magicBlockNotDelegated
  | magicBlockSequenceReplay | magicBlockInvalidCallback | magicBlockScratchNotEmpty
  | magicBlockUndelegationInProgress | magicBlockCallbackAlreadyConsumed | invalidTradingSession
  | sessionNonceReplay | custodyViolation | selfTradeAborted | magicBlockClusterTooLarge
  | v3BookFull
  deriving DecidableEq, Repr

/-- The outcome of an instruction that the runtime rolls back. -/
inductive ProgramError where
  | custom (error : EquinoxError)
  | notEnoughAccountKeys
  | missingRequiredSignature
  | invalidAccountData
  | invalidInstructionData
  | illegalOwner
  | arithmeticOverflow
  | computeBudgetExceeded
  deriving DecidableEq, Repr

instance : Coe EquinoxError ProgramError := ⟨.custom⟩

/-- The error of every malformed account or book record. -/
def bundleError : ProgramError := .custom .invalidInstruction

inductive Side where
  | bid | ask
  deriving DecidableEq, Repr

def Side.opposite : Side → Side
  | bid => ask
  | ask => bid

inductive TreeKind where
  | fixed | oraclePegged
  deriving DecidableEq, Repr

inductive PeggedState where
  | valid (price : I64)
  | invalid
  | skipped
  deriving DecidableEq

abbrev Key := Fin (2 ^ 128)

instance Key.instNeZero : NeZero (2 ^ 128) := ⟨by decide⟩

/-- A resting order. `reservePrice` is the price stored in the leaf's reserved bytes. -/
structure LeafNode where
  side : Side
  owner : ℕ
  key : Key
  quantity : ℕ
  expiresAt : ℕ
  pegLimit : ℤ
  clientOrderId : ℕ
  priceOrOffset : I64
  sequence : U64
  postOnly : Bool
  reservePrice : ℤ
  deriving DecidableEq

structure InnerNode where
  prefixLen : ℕ
  key : Key
  children : Bool → ℕ
  childEarliestExpiry : Bool → ℕ

/-- One node record of a book page, by its tag byte. -/
inductive Node where
  | uninitialized
  | inner (node : InnerNode)
  | leaf (node : LeafNode)
  | free (next : ℕ)
  | lastFree

/-! ## Keys as bit strings -/

def leadingZeros (x : ℕ) : ℕ := if x = 0 then 128 else 127 - log2 x

def commonPrefix (left right : Key) : ℕ := leadingZeros (left.val ^^^ right.val)

def bit (key : Key) (prefixLen : ℕ) : Bool := key.val.testBit (127 - prefixLen)

theorem log2_xor_lt (a b : Key) : log2 (a.val ^^^ b.val) < 128 := by
  rcases eq_or_ne (a.val ^^^ b.val) 0 with h | h
  · simp [h]
  · exact (log2_lt h).2 (xor_lt_two_pow a.isLt b.isLt)

theorem xor_ne_zero {a b : Key} (h : a ≠ b) : a.val ^^^ b.val ≠ 0 := by
  simpa [xor_eq_zero_iff, Fin.val_inj] using h

theorem commonPrefix_of_ne {a b : Key} (h : a ≠ b) :
    commonPrefix a b = 127 - log2 (a.val ^^^ b.val) := by
  simp [commonPrefix, leadingZeros, xor_ne_zero h]

theorem bit_ne_iff {a b : Key} {i : ℕ} :
    bit a i ≠ bit b i ↔ (a.val ^^^ b.val).testBit (127 - i) = true := by
  simp [bit, testBit_xor]

instance : BitKey Key where
  width := 128
  bit := bit
  lcp := commonPrefix
  bit_eq_of_lt_lcp := by
    intro a b i hi
    rcases eq_or_ne a b with rfl | h
    · rfl
    · rw [commonPrefix_of_ne h] at hi
      by_contra hne
      have hlog := log2_lt (xor_ne_zero h) |>.1 (lt_of_le_of_lt (le_refl _) (by omega :
        log2 (a.val ^^^ b.val) < 127 - i))
      have := bit_ne_iff.1 hne
      simp [testBit_lt_two_pow hlog] at this
  bit_lcp_ne := by
    intro a b h
    have hlt := log2_xor_lt a b
    rw [bit_ne_iff, commonPrefix_of_ne h,
      show 127 - (127 - log2 (a.val ^^^ b.val)) = log2 (a.val ^^^ b.val) by omega]
    exact testBit_log2 (xor_ne_zero h)
  lcp_lt_width := by
    intro a b h
    rw [commonPrefix_of_ne h]
    omega
  width_le_lcp_self := by
    intro a
    simp [commonPrefix, leadingZeros]
  lt_of_bit := by
    intro a b p hp hagree ha hb
    refine lt_of_testBit (127 - p) ha hb fun j hj => ?_
    rcases lt_or_ge j 128 with hj' | hj'
    · have := hagree (127 - j) (by omega)
      simpa [bit, show 127 - (127 - j) = j by omega] using this
    · have hle : 2 ^ 128 ≤ 2 ^ j := Nat.pow_le_pow_right (by omega) hj'
      rw [Nat.testBit_lt_two_pow (a.isLt.trans_le hle),
        testBit_lt_two_pow (b.isLt.trans_le hle)]

@[simp] theorem width_key : BitKey.width Key = 128 := rfl

@[simp] theorem lcp_key (a b : Key) : BitKey.lcp a b = commonPrefix a b := rfl

@[simp] theorem bit_key (a : Key) (i : ℕ) : BitKey.bit a i = bit a i := rfl

/-! ## Price-time keys -/

def packKey (high low : U64) : Key :=
  ⟨high.val * 2 ^ 64 + low.val, by have := high.isLt; have := low.isLt; omega⟩

/-- `computeBudgetExceeded` is the runtime's end of a walk that goes round in a cycle, and
`unreachable` a place that the program promises never to get to. -/
inductive BookError where
  | full | duplicateKey | missingKey | badHandle | badTag | badPrice | badSequence | invalidOwner
  | invalidTree | integrity | badLimit | computeBudgetExceeded | unreachable
  deriving DecidableEq, Repr

/-- The price word of a key: asks ascend with the price, bids descend. -/
def priceWord (side : Side) (price : I64) : U64 :=
  match side with
  | .ask => ⟨price.val.toNat, by have := price.property; omega⟩
  | .bid => ⟨2 ^ 64 - 1 - price.val.toNat, by omega⟩

def priceTimeKey (side : Side) (price : I64) (sequence : U64) : Except BookError Key := do
  require (0 < price.val) .badPrice
  pure (packKey (priceWord side price) sequence)

/-- The offset word of a pegged key: flipping the sign bit orders signed offsets. -/
def offsetWord (side : Side) (offset : I64) : U64 :=
  match side with
  | .ask => ⟨(offset.val + 2 ^ 63).toNat, by have := offset.property; omega⟩
  | .bid => ⟨2 ^ 64 - 1 - (offset.val + 2 ^ 63).toNat, by omega⟩

def offsetTimeKey (side : Side) (offset : I64) (sequence : U64) : Key :=
  packKey (offsetWord side offset) sequence

def peggedState (leaf : LeafNode) (oracle : Option I64) (now : ℕ) : PeggedState :=
  if leaf.quantity = 0 ∨ leaf.expiresAt ≤ now then .invalid
  else match oracle with
    | none => .skipped
    | some oracle =>
      match oracle.checkedAdd leaf.priceOrOffset with
      | none => .invalid
      | some price =>
        let permitted : Bool := match leaf.side with
          | .bid => price.val ≤ leaf.pegLimit
          | .ask => leaf.pegLimit ≤ price.val
        if price.val ≤ 0 then .invalid
        else if leaf.pegLimit ≤ 0 ∨ permitted = false then .invalid
        else .valid price

/-- The arguments of a new order, before it has a key. -/
structure OrderInput where
  side : Side
  tree : TreeKind
  owner : ℕ
  priceOrOffset : I64
  sequence : U64
  quantity : ℕ
  expiresAt : ℕ
  pegLimit : ℤ
  clientOrderId : ℕ
  postOnly : Bool

def OrderInput.leaf (input : OrderInput) : Except BookError LeafNode := do
  let key ← match input.tree with
    | .fixed => priceTimeKey input.side input.priceOrOffset input.sequence
    | .oraclePegged => pure (offsetTimeKey input.side input.priceOrOffset input.sequence)
  pure {
    side := input.side
    owner := input.owner
    key
    quantity := input.quantity
    expiresAt := input.expiresAt
    pegLimit := input.pegLimit
    clientOrderId := input.clientOrderId
    priceOrOffset := input.priceOrOffset
    sequence := input.sequence
    postOnly := input.postOnly
    reservePrice := 0 }

def storedV3ReservePrice (leaf : LeafNode) : Option ℤ :=
  if 0 < leaf.reservePrice then some leaf.reservePrice else none

end Equinox
