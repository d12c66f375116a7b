import Equinox.Book.Node

/-! # The page-sharded book

One side of a market's book: a fixed and an oracle-pegged crit-bit tree over
node records spread across nine pages, with one free list and one bump cursor.
Page zero holds the roots and the allocator's cursors; handles are global.
Mutations return the pages also when they fail.
-/

namespace Equinox

open Foundation CritBit

def NONE : ℕ := 2 ^ 32 - 1

def bookNodesPerPage : ℕ := 115

def bookPagesPerSide : ℕ := 9

def bookSlotsPerSide : ℕ := 1024

structure BookPage where
  fixedRoot : ℕ
  peggedRoot : ℕ
  freeHead : ℕ
  freeCount : ℕ
  bumpIndex : ℕ
  nodes : ℕ → Node

structure PagedBookV3 where
  pages : ℕ → BookPage

abbrev BookM := EStateM ProgramError PagedBookV3

def initializeBookPageMetadata (data : BookPage) (page : ℕ) : Except ProgramError BookPage := do
  require (page < bookPagesPerSide) bundleError
  let cleared := { data with fixedRoot := 0, peggedRoot := 0, freeHead := 0, freeCount := 0,
                             bumpIndex := 0 }
  pure (if page = 0 then { cleared with fixedRoot := NONE, peggedRoot := NONE, freeHead := NONE }
    else cleared)

def zeroPage : BookPage where
  fixedRoot := 0
  peggedRoot := 0
  freeHead := 0
  freeCount := 0
  bumpIndex := 0
  nodes _ := .uninitialized

namespace PagedBookV3

/-- The nine pages of a side after their initialization. -/
def fresh : PagedBookV3 where
  pages page := (initializeBookPageMetadata zeroPage page).toOption.getD zeroPage

/-! ## Records -/

def modifyPage (b : PagedBookV3) (page : ℕ) (f : BookPage → BookPage) : PagedBookV3 :=
  { pages := fun i => if i = page then f (b.pages i) else b.pages i }

def pageSlot (handle : ℕ) : Except ProgramError (ℕ × ℕ) := do
  require (handle < bookSlotsPerSide) bundleError
  pure (handle / bookNodesPerPage, handle % bookNodesPerPage)

def root (b : PagedBookV3) : TreeKind → ℕ
  | .fixed => (b.pages 0).fixedRoot
  | .oraclePegged => (b.pages 0).peggedRoot

def withRoot (b : PagedBookV3) (tree : TreeKind) (value : ℕ) : PagedBookV3 :=
  b.modifyPage 0 fun page =>
    match tree with
    | .fixed => { page with fixedRoot := value }
    | .oraclePegged => { page with peggedRoot := value }

def setRoot (tree : TreeKind) (value : ℕ) : BookM Unit := modify (·.withRoot tree value)

def freeHead (b : PagedBookV3) : ℕ := (b.pages 0).freeHead

def freeCount (b : PagedBookV3) : ℕ := (b.pages 0).freeCount

def bumpIndex (b : PagedBookV3) : ℕ := (b.pages 0).bumpIndex

def setFreeHead (value : ℕ) : BookM Unit :=
  modify fun b => b.modifyPage 0 fun page => { page with freeHead := value }

def setFreeCount (value : ℕ) : BookM Unit :=
  modify fun b => b.modifyPage 0 fun page => { page with freeCount := value }

def setBumpIndex (value : ℕ) : BookM Unit :=
  modify fun b => b.modifyPage 0 fun page => { page with bumpIndex := value }

def nodeBytes (b : PagedBookV3) (handle : ℕ) : Except ProgramError Node := do
  let (page, slot) ← pageSlot handle
  pure ((b.pages page).nodes slot)

def putNodeBytes (handle : ℕ) (node : Node) : BookM Unit := do
  let (page, slot) ← reading fun _ => pageSlot handle
  modify fun b => b.modifyPage page fun data =>
    { data with nodes := fun i => if i = slot then node else data.nodes i }

def leaf (b : PagedBookV3) (handle : ℕ) : Except ProgramError LeafNode := do
  match ← b.nodeBytes handle with
  | .leaf leaf => pure leaf
  | _ => throw bundleError

def inner (b : PagedBookV3) (handle : ℕ) : Except ProgramError InnerNode := do
  match ← b.nodeBytes handle with
  | .inner inner => pure inner
  | _ => throw bundleError

def putLeaf (handle : ℕ) (leaf : LeafNode) : BookM Unit := putNodeBytes handle (.leaf leaf)

def putInner (handle : ℕ) (node : InnerNode) : BookM Unit := putNodeBytes handle (.inner node)

def subtreeExpiry (b : PagedBookV3) (handle : ℕ) : Except ProgramError ℕ := do
  match ← b.nodeBytes handle with
  | .leaf leaf => pure leaf.expiresAt
  | .inner inner => pure (min (inner.childEarliestExpiry false) (inner.childEarliestExpiry true))
  | _ => throw bundleError

def refreshInner (handle : ℕ) : BookM Unit := do
  let inner ← reading (·.inner handle)
  let left ← reading (·.subtreeExpiry (inner.children false))
  let right ← reading (·.subtreeExpiry (inner.children true))
  putInner handle { inner with childEarliestExpiry := sided true right left }

/-! ## Allocation -/

def nextFree (b : PagedBookV3) (handle : ℕ) : Except ProgramError ℕ := do
  match ← b.nodeBytes handle with
  | .free next => pure next
  | .lastFree => pure NONE
  | _ => throw bundleError

def allocate : BookM ℕ := do
  let b ← get
  if b.freeHead = NONE then
    if bookSlotsPerSide ≤ b.bumpIndex then throw (.custom .v3BookFull)
    else
      setBumpIndex (b.bumpIndex + 1)
      pure b.bumpIndex
  else
    let next ← reading (·.nextFree b.freeHead)
    if b.freeCount = 0 then throw bundleError
    else
      setFreeHead next
      setFreeCount (b.freeCount - 1)
      pure b.freeHead

def recycle (handle : ℕ) : BookM Unit := do
  let b ← get
  if b.bumpIndex ≤ handle then throw bundleError
  else match ← reading (·.nodeBytes handle) with
    | .uninitialized => throw bundleError
    | _ =>
      putNodeBytes handle (if b.freeHead = NONE then .lastFree else .free b.freeHead)
      setFreeHead handle
      if b.freeCount + 1 < 2 ^ 32 then setFreeCount (b.freeCount + 1) else throw bundleError

/-! ## Insertion -/

def makeInner (prefixLen : ℕ) (representative : Key) (old new : ℕ) (newBranch : Bool) :
    InnerNode where
  prefixLen
  key := representative
  children := sided newBranch new old
  childEarliestExpiry _ := 2 ^ 64 - 1

/-- Point the last node of a path at another child, and refresh the path upwards. The path is
kept innermost first. -/
def replaceChild (tree : TreeKind) (path : List (ℕ × Bool)) (replacement : ℕ) : BookM Unit :=
  match path with
  | [] => setRoot tree replacement
  | (parent, branch) :: ancestors => do
    let inner ← reading (·.inner parent)
    putInner parent
      { inner with children := fun c => if c = branch then replacement else inner.children c }
    refreshInner parent
    ancestors.forM fun ancestor => refreshInner ancestor.1

/-- The second allocation of an insertion, which gives the first slot back when it fails. -/
def allocateInner (leafHandle : ℕ) : BookM ℕ := fun b =>
  match allocate b with
  | .ok handle b => .ok handle b
  | .error e b => (do recycle leafHandle; throw e : BookM ℕ) b

/-- Hang a new leaf beside the subtree at `current`, below a new inner node. -/
def splice (tree : TreeKind) (leaf : LeafNode) (path : List (ℕ × Bool)) (current prefixLen : ℕ)
    (representative : Key) : BookM ℕ := do
  let leafHandle ← allocate
  let innerHandle ← allocateInner leafHandle
  putLeaf leafHandle leaf
  putInner innerHandle
    (makeInner prefixLen representative current leafHandle (bit leaf.key prefixLen))
  refreshInner innerHandle
  replaceChild tree path innerHandle
  pure leafHandle

/-- The descent of an insertion. `room` is what is left of the 128 path entries. -/
def insertFrom (tree : TreeKind) (leaf : LeafNode) :
    (room : ℕ) → (path : List (ℕ × Bool)) → (current : ℕ) → BookM ℕ
  | room, path, current => do
    match ← reading (·.nodeBytes current) with
    | .leaf old =>
      if old.key = leaf.key then throw bundleError
      else splice tree leaf path current (commonPrefix old.key leaf.key) old.key
    | .inner old =>
      if commonPrefix old.key leaf.key < old.prefixLen then
        splice tree leaf path current (commonPrefix old.key leaf.key) old.key
      else match room with
        | 0 => throw bundleError
        | room + 1 =>
          let branch := bit leaf.key old.prefixLen
          insertFrom tree leaf room ((current, branch) :: path) (old.children branch)
    | _ => throw bundleError

def insert (tree : TreeKind) (leaf : LeafNode) : BookM ℕ := do
  let b ← get
  if b.root tree = NONE then
    let handle ← allocate
    putLeaf handle leaf
    setRoot tree handle
    pure handle
  else insertFrom tree leaf 128 [] (b.root tree)

def insertRestingOrder (tree : TreeKind) (leaf : LeafNode) : BookM ℕ :=
  if leaf.quantity = 0 then throw bundleError else insert tree leaf

/-! ## Search and removal -/

/-- The descent of a search. A walk longer than the number of slots is in a cycle, which the
runtime ends by its compute limit. -/
def findFrom (b : PagedBookV3) (key : Key) : (fuel current : ℕ) → Except ProgramError ℕ
  | 0, _ => throw .computeBudgetExceeded
  | fuel + 1, current =>
    if current = NONE then throw bundleError
    else do
      match ← b.nodeBytes current with
      | .leaf leaf => if leaf.key = key then pure current else throw bundleError
      | .inner inner =>
        if commonPrefix inner.key key < inner.prefixLen then throw bundleError
        else b.findFrom key fuel (inner.children (bit key inner.prefixLen))
      | _ => throw bundleError

def find (b : PagedBookV3) (tree : TreeKind) (key : Key) : Except ProgramError ℕ :=
  b.findFrom key (bookSlotsPerSide + 1) (b.root tree)

/-- The descent of a removal: the path, innermost first, and the node it ends at. -/
def removePath (b : PagedBookV3) (key : Key) :
    (room : ℕ) → (path : List (ℕ × Bool)) → (current : ℕ) →
      Except ProgramError (List (ℕ × Bool) × ℕ)
  | room, path, current => do
    match ← b.nodeBytes current with
    | .inner inner =>
      if commonPrefix inner.key key < inner.prefixLen then throw bundleError
      else match room with
        | 0 => throw bundleError
        | room + 1 =>
          let branch := bit key inner.prefixLen
          b.removePath key room ((current, branch) :: path) (inner.children branch)
    | _ => pure (path, current)

/-- Drop the last step of a path together with the path's last inner node. -/
def unlink (tree : TreeKind) (path : List (ℕ × Bool)) : BookM Unit :=
  match path with
  | [] => setRoot tree NONE
  | (parentHandle, branch) :: ancestors => do
    let parent ← reading (·.inner parentHandle)
    replaceChild tree ancestors (parent.children !branch)
    recycle parentHandle

def remove (tree : TreeKind) (key : Key) : BookM LeafNode := do
  let b ← get
  if b.root tree = NONE then throw bundleError
  else
    let (path, current) ← reading (·.removePath key 128 [] (b.root tree))
    let leaf ← reading (·.leaf current)
    if leaf.key ≠ key then throw bundleError
    else
      unlink tree path
      recycle current
      pure leaf

def removeOwned (tree : TreeKind) (key : Key) (owner : ℕ) : BookM LeafNode := do
  let handle ← reading (·.find tree key)
  let leaf ← reading (·.leaf handle)
  if leaf.owner ≠ owner then throw bundleError else remove tree key

def cancelOwnedOrder (tree : TreeKind) (key : Key) (owner : ℕ) : BookM LeafNode :=
  removeOwned tree key owner

def bestFrom (b : PagedBookV3) : (fuel current : ℕ) → Except ProgramError (Option ℕ)
  | 0, _ => throw .computeBudgetExceeded
  | fuel + 1, current =>
    if current = NONE then pure none
    else do
      match ← b.nodeBytes current with
      | .leaf _ => pure (some current)
      | .inner inner => b.bestFrom fuel (inner.children false)
      | _ => throw bundleError

def best (b : PagedBookV3) (tree : TreeKind) : Except ProgramError (Option ℕ) :=
  b.bestFrom (bookSlotsPerSide + 1) (b.root tree)

def firstExpiredFrom (b : PagedBookV3) (now : ℕ) :
    (fuel current : ℕ) → Except ProgramError (Option ℕ)
  | 0, _ => throw .computeBudgetExceeded
  | fuel + 1, current =>
    if current = NONE then pure none
    else do
      match ← b.nodeBytes current with
      | .leaf leaf => pure (if leaf.expiresAt ≤ now then some current else none)
      | .inner inner =>
        b.firstExpiredFrom now fuel
          (if inner.childEarliestExpiry false ≤ now then inner.children false
           else if inner.childEarliestExpiry true ≤ now then inner.children true
           else NONE)
      | _ => throw bundleError

def firstExpired (b : PagedBookV3) (tree : TreeKind) (now : ℕ) : Except ProgramError (Option ℕ) :=
  b.firstExpiredFrom now (bookSlotsPerSide + 1) (b.root tree)

/-- Remove up to `max` expired leaves; the result is how many were removed. -/
def sweepExpired (tree : TreeKind) (now : ℕ) : (max : ℕ) → BookM ℕ
  | 0 => pure 0
  | max + 1 => do
    match ← reading (·.firstExpired tree now) with
    | none => pure 0
    | some handle =>
      let leaf ← reading (·.leaf handle)
      let _ ← remove tree leaf.key
      let removed ← sweepExpired tree now max
      pure (removed + 1)

end PagedBookV3

end Equinox
