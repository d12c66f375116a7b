import Equinox.Book.Paged

/-! # Arenas

One side of a V2 book: a fixed and an oracle-pegged crit-bit tree over one array
of 1024 node records, with one free list and one bump cursor. An operation that
fails leaves what it wrote before.
-/

namespace Equinox.V2

open Foundation CritBit Function BookError

def arenaCapacity : ℕ := 1024

def noExpiry : ℕ := 2 ^ 64 - 1

def expiryOf (leaf : LeafNode) : ℕ := if leaf.expiresAt = 0 then noExpiry else leaf.expiresAt

def prefixMatches (a b : Key) (prefixLen : ℕ) : Bool :=
  prefixLen = 0 || a.val >>> (128 - prefixLen) = b.val >>> (128 - prefixLen)

structure Arena where
  roots : TreeKind → ℕ
  leafCounts : TreeKind → ℕ
  bumpIndex : ℕ
  freeHead : ℕ
  freeLen : ℕ
  nodes : ℕ → Node

abbrev ArenaM := EStateM BookError Arena

/-- A failure that the caller passes over. The end of the compute budget is not one. -/
def attempt {α : Type} : Except BookError α → Except BookError (Option α)
  | .ok a => pure (some a)
  | .error .computeBudgetExceeded => throw .computeBudgetExceeded
  | .error _ => pure none

namespace Arena

def new : Arena where
  roots _ := NONE
  leafCounts _ := 0
  bumpIndex := 0
  freeHead := NONE
  freeLen := 0
  nodes _ := .uninitialized

/-! ## Records -/

def tag (a : Arena) (handle : ℕ) : Except BookError Node := do
  require (handle < arenaCapacity) .badHandle
  pure (a.nodes handle)

def inner (a : Arena) (handle : ℕ) : Except BookError InnerNode := do
  match ← a.tag handle with
  | .inner node => pure node
  | _ => throw .badTag

def leaf (a : Arena) (handle : ℕ) : Except BookError LeafNode := do
  match ← a.tag handle with
  | .leaf leaf => pure leaf
  | _ => throw .badTag

def writeNode (handle : ℕ) (node : Node) : ArenaM Unit :=
  modify fun a => { a with nodes := update a.nodes handle node }

def writeInner (handle : ℕ) (node : InnerNode) : ArenaM Unit := writeNode handle (.inner node)

def writeLeaf (handle : ℕ) (leaf : LeafNode) : ArenaM Unit := writeNode handle (.leaf leaf)

def setRoot (tree : TreeKind) (handle : ℕ) : ArenaM Unit :=
  modify fun a => { a with roots := update a.roots tree handle }

def applyLeafQuantity (handle quantity : ℕ) : ArenaM Unit := do
  let leaf ← reading (·.leaf handle)
  writeLeaf handle { leaf with quantity := quantity }

def subtreeExpiry (a : Arena) (handle : ℕ) : Except BookError ℕ := do
  match ← a.tag handle with
  | .leaf leaf => pure (expiryOf leaf)
  | .inner node => pure (min (node.childEarliestExpiry false) (node.childEarliestExpiry true))
  | _ => throw .badTag

def refreshInner (handle : ℕ) : ArenaM Unit := do
  let node ← reading (·.inner handle)
  let left ← reading (·.subtreeExpiry (node.children false))
  let right ← reading (·.subtreeExpiry (node.children true))
  writeInner handle { node with childEarliestExpiry := sided true right left }

/-- Refresh the nodes of a path, which is kept innermost first. -/
def refreshPath (path : List (ℕ × Bool)) : ArenaM Unit :=
  path.forM fun step => refreshInner step.1

/-- Point the last node of a path, or the root, at another child. -/
def replaceChild (tree : TreeKind) (path : List (ℕ × Bool)) (replacement : ℕ) : ArenaM Unit :=
  match path with
  | [] => setRoot tree replacement
  | (parentHandle, branch) :: _ => do
    let parent ← reading (·.inner parentHandle)
    let expiry ← reading (·.subtreeExpiry replacement)
    writeInner parentHandle { parent with
      children := update parent.children branch replacement
      childEarliestExpiry := update parent.childEarliestExpiry branch expiry }

/-! ## Allocation -/

def nextFree (a : Arena) (handle : ℕ) : Except BookError ℕ := do
  match ← a.tag handle with
  | .free next => pure next
  | .lastFree => pure NONE
  | _ => throw .badTag

def allocate : ArenaM ℕ := do
  let a ← get
  if a.freeHead ≠ NONE then
    let next ← reading (·.nextFree a.freeHead)
    modify fun a => { a with freeHead := next }
    require (a.freeLen ≠ 0) integrity
    modify fun a => { a with freeLen := a.freeLen - 1 }
    pure a.freeHead
  else
    require (a.bumpIndex < arenaCapacity) full
    modify fun a => { a with bumpIndex := a.bumpIndex + 1 }
    pure a.bumpIndex

def pushFree (handle : ℕ) : ArenaM Unit := do
  let a ← get
  writeNode handle (if a.freeHead = NONE then .lastFree else .free a.freeHead)
  modify fun a => { a with freeHead := handle }
  require (a.freeLen + 1 < 2 ^ 32) integrity
  modify fun a => { a with freeLen := a.freeLen + 1 }

def recycle (handle : ℕ) : ArenaM Unit := do
  let a ← get
  require (handle < a.bumpIndex) badHandle
  match ← reading (·.tag handle) with
  | .uninitialized => throw .badHandle
  | _ => pushFree handle

def releaseUnwritten (handle : ℕ) : ArenaM Unit := do
  let a ← get
  require (handle < a.bumpIndex) badHandle
  if handle + 1 = a.bumpIndex then modify fun a => { a with bumpIndex := a.bumpIndex - 1 }
  else pushFree handle

/-! ## Insertion -/

def makeInner (prefixLen : ℕ) (key : Key) (existing fresh : ℕ) (freshBranch : Bool) :
    InnerNode where
  prefixLen
  key
  children := sided freshBranch fresh existing
  childEarliestExpiry _ := noExpiry

/-- The second allocation of an insertion, which gives the first slot back when it fails. -/
def allocateInner (newHandle : ℕ) : ArenaM ℕ := fun a =>
  match allocate a with
  | .ok handle a => .ok handle a
  | .error e a => (do releaseUnwritten newHandle; throw e : ArenaM ℕ) a

/-- Hang a new leaf beside the subtree at `current`, below a new inner node. -/
def splice (tree : TreeKind) (leaf : LeafNode) (path : List (ℕ × Bool)) (current prefixLen : ℕ)
    (key : Key) : ArenaM ℕ := do
  let newHandle ← allocate
  let innerHandle ← allocateInner newHandle
  writeLeaf newHandle leaf
  writeInner innerHandle (makeInner prefixLen key current newHandle (bit leaf.key prefixLen))
  refreshInner innerHandle
  replaceChild tree path innerHandle
  modify fun a =>
    { a with leafCounts := update a.leafCounts tree (a.leafCounts tree + 1) }
  refreshPath path
  pure newHandle

/-- The descent of an insertion. `room` is what is left of the 128 path entries. -/
def insertFrom (tree : TreeKind) (leaf : LeafNode) :
    (room : ℕ) → (path : List (ℕ × Bool)) → (current : ℕ) → ArenaM ℕ
  | room, path, current => do
    match ← reading (·.tag current) with
    | .leaf existing =>
      if existing.key = leaf.key then throw .duplicateKey
      else splice tree leaf path current (commonPrefix existing.key leaf.key) existing.key
    | .inner node =>
      if commonPrefix node.key leaf.key < node.prefixLen then
        splice tree leaf path current (commonPrefix node.key leaf.key) node.key
      else match room with
        | 0 => throw .integrity
        | room + 1 =>
          let branch := bit leaf.key node.prefixLen
          insertFrom tree leaf room ((current, branch) :: path) (node.children branch)
    | _ => throw .badTag

def insert (tree : TreeKind) (leaf : LeafNode) : ArenaM ℕ := do
  let a ← get
  if a.roots tree = NONE then
    let handle ← allocate
    writeLeaf handle leaf
    setRoot tree handle
    modify fun a =>
      { a with leafCounts := update a.leafCounts tree (a.leafCounts tree + 1) }
    pure handle
  else insertFrom tree leaf 128 [] (a.roots tree)

/-! ## Search -/

/-- The descent of a search. A walk longer than the number of slots is in a cycle. -/
def findFrom (a : Arena) (key : Key) : (fuel current : ℕ) → Except BookError ℕ
  | 0, _ => throw .computeBudgetExceeded
  | fuel + 1, current =>
    if current = NONE then throw .missingKey
    else do
      match ← a.tag current with
      | .leaf leaf => if leaf.key = key then pure current else throw .missingKey
      | .inner node =>
        if commonPrefix node.key key < node.prefixLen then throw .missingKey
        else a.findFrom key fuel (node.children (bit key node.prefixLen))
      | _ => throw .badTag

def find (a : Arena) (tree : TreeKind) (key : Key) : Except BookError ℕ :=
  a.findFrom key (arenaCapacity + 1) (a.roots tree)

def findsAt (a : Arena) (tree : TreeKind) (key : Key) (handle : ℕ) : Except BookError Bool := do
  let found ← attempt (a.find tree key)
  pure (found = some handle)

/-- What an insertion needs: a new key, and one slot for the first leaf of a tree or two. -/
def canInsert (a : Arena) (tree : TreeKind) (key : Key) (recycledAfterPlan : ℕ) :
    Except BookError Unit := do
  let found ← attempt (a.find tree key)
  require (found = none) .duplicateKey
  let required := if a.roots tree = NONE then 1 else 2
  require (required ≤ arenaCapacity - a.bumpIndex + a.freeLen + recycledAfterPlan) .full

def bestFrom (a : Arena) : (fuel current : ℕ) → Except BookError (Option ℕ)
  | 0, _ => throw .computeBudgetExceeded
  | fuel + 1, current =>
    if current = NONE then pure none
    else do
      match ← a.tag current with
      | .leaf _ => pure (some current)
      | .inner node => a.bestFrom fuel (node.children false)
      | _ => throw .badTag

def best (a : Arena) (tree : TreeKind) : Except BookError (Option ℕ) :=
  a.bestFrom (arenaCapacity + 1) (a.roots tree)

def firstExpiredFrom (a : Arena) (now : ℕ) : (fuel current : ℕ) → Except BookError (Option ℕ)
  | 0, _ => throw .computeBudgetExceeded
  | fuel + 1, current =>
    if current = NONE then pure none
    else do
      match ← a.tag current with
      | .leaf leaf => pure (if expiryOf leaf ≤ now then some current else none)
      | .inner node =>
        a.firstExpiredFrom now fuel
          (if node.childEarliestExpiry false ≤ now then node.children false
           else if node.childEarliestExpiry true ≤ now then node.children true
           else NONE)
      | _ => throw .badTag

def firstExpired (a : Arena) (tree : TreeKind) (now : ℕ) : Except BookError (Option ℕ) :=
  a.firstExpiredFrom now (arenaCapacity + 1) (a.roots tree)

/-! ## Removal -/

/-- The descent of a removal: the path, innermost first, and the node it ends at. -/
def removePath (a : Arena) (key : Key) :
    (room : ℕ) → (path : List (ℕ × Bool)) → (current : ℕ) →
      Except BookError (List (ℕ × Bool) × ℕ)
  | room, path, current => do
    match ← a.tag current with
    | .inner node =>
      if commonPrefix node.key key < node.prefixLen then throw .missingKey
      else match room with
        | 0 => throw .missingKey
        | room + 1 =>
          let branch := bit key node.prefixLen
          a.removePath key room ((current, branch) :: path) (node.children branch)
    | _ => pure (path, current)

/-- Take the last step of a path out of the tree, together with the node it leaves from. -/
def unlink (tree : TreeKind) (path : List (ℕ × Bool)) : ArenaM Unit :=
  match path with
  | [] => setRoot tree NONE
  | (parentHandle, branch) :: ancestors => do
    let parent ← reading (·.inner parentHandle)
    replaceChild tree ancestors (parent.children !branch)
    recycle parentHandle

def remove (tree : TreeKind) (key : Key) : ArenaM LeafNode := do
  let a ← get
  require (a.roots tree ≠ NONE) missingKey
  let (path, current) ← reading (·.removePath key 128 [] (a.roots tree))
  let leaf ← reading (·.leaf current)
  require (leaf.key = key) missingKey
  unlink tree path
  recycle current
  require (a.leafCounts tree ≠ 0) integrity
  modify fun a =>
    { a with leafCounts := update a.leafCounts tree (a.leafCounts tree - 1) }
  refreshPath path.tail
  pure leaf

def removeOwned (tree : TreeKind) (key : Key) (owner : ℕ) : ArenaM LeafNode := do
  let handle ← reading (·.find tree key)
  let leaf ← reading (·.leaf handle)
  require (leaf.owner = owner) invalidOwner
  remove tree key

/-- A computation that the program has checked before and does not expect to fail. -/
def validated {α : Type} (x : ArenaM α) : ArenaM α := fun a =>
  match x a with
  | .ok result a => .ok result a
  | .error _ a => .error .unreachable a

def removeValidated (tree : TreeKind) (key : Key) : ArenaM LeafNode := validated (remove tree key)

def applyLeafQuantityValidated (handle quantity : ℕ) : ArenaM Unit :=
  validated (applyLeafQuantity handle quantity)

/-- Remove up to `max` expired leaves; the result is how many were removed. -/
def sweepExpired (tree : TreeKind) (now : ℕ) : (max : ℕ) → ArenaM ℕ
  | 0 => pure 0
  | max + 1 => do
    match ← reading (·.firstExpired tree now) with
    | none => pure 0
    | some handle =>
      let leaf ← reading (·.leaf handle)
      let _ ← remove tree leaf.key
      let removed ← sweepExpired tree now max
      pure (removed + 1)

end Arena

/-! ## Cancelling -/

/-- What a cancellation of several orders took from the book. -/
structure CancelSummary where
  count : ℕ
  bidQuantity : ℕ
  askQuantity : ℕ
  reservedNotional : ℕ
  deriving DecidableEq, Repr

namespace CancelSummary

def empty : CancelSummary where
  count := 0
  bidQuantity := 0
  askQuantity := 0
  reservedNotional := 0

def add (summary : CancelSummary) (leaf : LeafNode) : Except BookError CancelSummary := do
  let (bid, ask) := match leaf.side with
    | .bid => (summary.bidQuantity + leaf.quantity, summary.askQuantity)
    | .ask => (summary.bidQuantity, summary.askQuantity + leaf.quantity)
  require (bid < 2 ^ 64 ∧ ask < 2 ^ 64) .integrity
  let notional := summary.reservedNotional + leaf.quantity * leaf.priceOrOffset.val.toNat
  require (notional < 2 ^ 128) .integrity
  pure {
    count := summary.count + 1
    bidQuantity := bid
    askQuantity := ask
    reservedNotional := notional }

end CancelSummary

namespace Arena

/-- One slot as the cancellation of an owner's orders visits it. -/
def cancelSlot (owner max : ℕ) (tree : TreeKind) (summary : CancelSummary) (handle : ℕ) :
    ArenaM CancelSummary := do
  if summary.count < max then
    match ← reading (·.tag handle) with
    | .leaf leaf =>
      if leaf.owner = owner then
        if ← reading (·.findsAt tree leaf.key handle) then
          let _ ← remove tree leaf.key
          summary.add leaf
        else pure summary
      else pure summary
    | _ => pure summary
  else pure summary

def cancelOwnerSummary (owner max : ℕ) : ArenaM CancelSummary :=
  [TreeKind.fixed, TreeKind.oraclePegged].foldlM (fun summary tree => do
    let a ← get
    (List.range a.bumpIndex).foldlM (cancelSlot owner max tree) summary) .empty

/-! ## Validation -/

/-- The place of a subtree: its root, the node above, and the branch taken there. -/
structure Pending where
  handle : ℕ
  parent : ℕ
  expectedBranch : Bool

def nodeKey : Node → Except BookError Key
  | .leaf leaf => pure leaf.key
  | .inner node => pure node.key
  | _ => throw .badTag

/-- A node continues the prefix of the node above it. -/
def checkParent (a : Arena) (pending : Pending) (node : Node) (key : Key) :
    Except BookError Unit :=
  if pending.parent = NONE then pure ()
  else do
    let parent ← a.inner pending.parent
    require (prefixMatches parent.key key parent.prefixLen = true ∧
      bit key parent.prefixLen = pending.expectedBranch) .integrity
    match node with
    | .inner node => require (parent.prefixLen < node.prefixLen) .integrity
    | _ => pure ()

/-- An inner node has two children and caches their earliest expiries. -/
def checkInner (a : Arena) (node : InnerNode) : Except BookError Unit := do
  require (node.prefixLen < 128 ∧ node.children false ≠ NONE ∧ node.children true ≠ NONE)
    .integrity
  let left ← a.subtreeExpiry (node.children false)
  let right ← a.subtreeExpiry (node.children true)
  require (node.childEarliestExpiry false = left ∧ node.childEarliestExpiry true = right)
    .integrity

/-- Visit the subtrees of a stack of at most 129 entries; returns the number of leaves and the
handles reached. -/
def validateFrom (a : Arena) : (fuel : ℕ) → (stack : List Pending) → (reachable : List ℕ) →
    (leaves : ℕ) → Except BookError (ℕ × List ℕ)
  | _, [], reachable, leaves => pure (leaves, reachable)
  | 0, _ :: _, _, _ => throw .computeBudgetExceeded
  | fuel + 1, pending :: stack, reachable, leaves => do
    require (pending.handle < a.bumpIndex ∧ pending.handle ∉ reachable) .integrity
    let node ← a.tag pending.handle
    let key ← nodeKey node
    a.checkParent pending node key
    match node with
    | .inner node =>
      a.checkInner node
      require (stack.length + 2 ≤ 129) .integrity
      a.validateFrom fuel
        (⟨node.children true, pending.handle, true⟩ ::
          ⟨node.children false, pending.handle, false⟩ :: stack)
        (pending.handle :: reachable) leaves
    | _ => a.validateFrom fuel stack (pending.handle :: reachable) (leaves + 1)

def validateTree (a : Arena) (tree : TreeKind) (reachable : List ℕ) :
    Except BookError (ℕ × List ℕ) :=
  if a.roots tree = NONE then pure (0, reachable)
  else a.validateFrom (arenaCapacity + 1) [⟨a.roots tree, NONE, false⟩] reachable 0

def validateFree (a : Arena) (reachable : List ℕ) :
    (fuel cursor : ℕ) → (free : List ℕ) → Except BookError (List ℕ)
  | 0, _, _ => throw .computeBudgetExceeded
  | fuel + 1, cursor, free =>
    if cursor = NONE then pure free
    else do
      require (cursor < a.bumpIndex ∧ cursor ∉ free ∧ cursor ∉ reachable) .integrity
      let next ← a.nextFree cursor
      a.validateFree reachable fuel next (cursor :: free)

def isUninitialized : Node → Bool
  | .uninitialized => true
  | _ => false

/-- Every slot below the bump cursor is in exactly one tree or the free list, the trees are crit-bit
trees with right counts and cached expiries, and the slots above are untouched. -/
def validate (a : Arena) : Except BookError Unit := do
  require (a.bumpIndex ≤ arenaCapacity) .integrity
  let (fixed, reachable) ← a.validateTree .fixed []
  require (fixed = a.leafCounts .fixed) .integrity
  let (pegged, reachable) ← a.validateTree .oraclePegged reachable
  require (pegged = a.leafCounts .oraclePegged) .integrity
  let free ← a.validateFree reachable (arenaCapacity + 1) a.freeHead []
  require (free.length = a.freeLen) .integrity
  require (((List.range a.bumpIndex).all fun handle =>
    decide (handle ∈ reachable) || decide (handle ∈ free)) = true) .integrity
  require (((List.range (arenaCapacity - a.bumpIndex)).all fun i =>
    isUninitialized (a.nodes (a.bumpIndex + i))) = true) .integrity

def validateOwnerOccupancy (a : Arena) (occupied : ℕ → Bool) : Except BookError Unit :=
  (List.range a.bumpIndex).forM fun handle => do
    match ← a.tag handle with
    | .leaf leaf => require (leaf.owner < 128 ∧ occupied leaf.owner = true) .invalidOwner
    | _ => pure ()

end Arena

end Equinox.V2
