import KbfsPrefetcher.Walk

/-
  Child enumeration: `request` (one child edge), the three `prefetch*Block` loops,
  `handlePrefetch` (the dispatch on the block's shape), `calculatePriority` and
  `stopIfNeeded`.

  `request` is the only place an edge enters the forest: the child `ptr` gets
  `parentPtr` in its bucket for `ptr.RefNonce`, and the edge counts the child's
  `subtreeBlockCount` into the parent's walk when it is new or the parent is.
-/

namespace KbfsPrefetcher

open BlockPrefetcher

variable {A : Type} [DecidableEq A] (act : ActionOps A)

/-- `calculatePriority`: the action is ignored, children run one step below their parent. -/
def calculatePriority (basePriority : Int) (_action : A) : Int := basePriority - 1

/-- Lines 357-367 of `request`: the child's record and whether it was waiting already; a
    missing one is made with count 1 (a later fetch of the child decrements it). -/
def childRecord (priority : Int) (ptr : BlockPointer) (action : A) (s : BlockPrefetcher A) :
    Bool × Nat × BlockPrefetcher A :=
  match s.prefetches ptr.id with
  | some loc => (true, loc, s)
  | none =>
    let (loc, s) := s.alloc (newPrefetch 1 false ⟨ptr, priority, .noPrefetch, action, false⟩)
    (false, loc, s.setPrefetch ptr.id loc)

/-- Lines 368-380 of `request`: a new record, or one whose action the combination
    changes, gets the combined action and a fetch through the retriever. -/
def sendChildRequest (priority : Int) (ptr : BlockPointer) (action : A) (isPrefetchWaiting : Bool)
    (loc : Nat) (s : BlockPrefetcher A) : BlockPrefetcher A :=
  let newAction := act.combine action (s.heap loc).req.action
  if !isPrefetchWaiting || (s.heap loc).req.action ≠ newAction then
    (s.modify loc fun pp => { pp with req := { pp.req with action := newAction } }).emit
      (.fetch ptr priority action)
  else s

/-- Lines 381-404 of `request`: the parent must have a record; `parentPtr` is recorded
    under the child's ref-nonce, and the child's count is the contribution when the edge
    is new or the parent is. -/
def recordParent (ptr parentPtr : BlockPointer) (isParentNew : Bool) (loc : Nat)
    (s : BlockPrefetcher A) : Except Abort (Int × BlockPrefetcher A) := do
  if (s.prefetches parentPtr.id).isNone then throw (.unknownParent parentPtr.id ptr.id)
  let pre := s.heap loc
  if parentPtr ∉ bucketOf ptr.refNonce pre.parents || isParentNew then
    return (pre.subtreeBlockCount,
      s.modify loc fun pp => { pp with parents := addParent ptr.refNonce parentPtr pp.parents })
  return (0, s)

/-- `request(priority, ptr, parentPtr, isParentNew, action, idsSeen)`; returns the
    `numBlocks` it contributes, the grown `idsSeen`, and the state. -/
def request (priority : Int) (ptr parentPtr : BlockPointer) (isParentNew : Bool) (action : A)
    (idsSeen : List Nat) (s : BlockPrefetcher A) :
    Except Abort (Int × List Nat × BlockPrefetcher A) := do
  if ptr.id ∈ idsSeen then return (0, idsSeen, s)
  let (isPrefetchWaiting, loc, s) := childRecord priority ptr action s
  let s := sendChildRequest act priority ptr action isPrefetchWaiting loc s
  let (numBlocks, s) ← recordParent ptr parentPtr isParentNew loc s
  return (numBlocks, ptr.id :: idsSeen, s)

/-- The loop shared by the `prefetch*Block` functions: `numBlocks += p.request(...)` for
    each pointer, in order. -/
def requestEach (priority : Int) (parentPtr : BlockPointer) (isParentNew : Bool) (action : A) :
    List BlockPointer → Int → List Nat → BlockPrefetcher A → Except Abort (Int × BlockPrefetcher A)
  | [], numBlocks, _, s => pure (numBlocks, s)
  | ptr :: ptrs, numBlocks, idsSeen, s => do
    let (n, idsSeen, s) ← request act priority ptr parentPtr isParentNew action idsSeen s
    requestEach priority parentPtr isParentNew action ptrs (numBlocks + n) idsSeen s

/-- The body `prefetchIndirectFileBlock` and `prefetchIndirectDirBlock` share: request every
    indirect pointer; the block is a tail when it has none. -/
def prefetchIndirectBlock (parentPtr : BlockPointer) (iptrs : List BlockPointer)
    (isPrefetchNew : Bool) (action : A) (basePriority : Int) (s : BlockPrefetcher A) :
    Except Abort (Int × Bool × BlockPrefetcher A) := do
  let newPriority := calculatePriority basePriority action
  let (numBlocks, s) ← requestEach act newPriority parentPtr isPrefetchNew action iptrs 0 [] s
  return (numBlocks, iptrs.isEmpty, s)

/-- `prefetchIndirectFileBlock`. -/
def prefetchIndirectFileBlock (parentPtr : BlockPointer) (iptrs : List BlockPointer)
    (isPrefetchNew : Bool) (action : A) (basePriority : Int) (s : BlockPrefetcher A) :
    Except Abort (Int × Bool × BlockPrefetcher A) :=
  prefetchIndirectBlock act parentPtr iptrs isPrefetchNew action basePriority s

/-- `prefetchIndirectDirBlock`. -/
def prefetchIndirectDirBlock (parentPtr : BlockPointer) (iptrs : List BlockPointer)
    (isPrefetchNew : Bool) (action : A) (basePriority : Int) (s : BlockPrefetcher A) :
    Except Abort (Int × Bool × BlockPrefetcher A) :=
  prefetchIndirectBlock act parentPtr iptrs isPrefetchNew action basePriority s

/-- `prefetchDirectDirBlock`: the entries sorted by ascending size (`sort.Sort` on
    `dirEntriesBySizeAsc`), symbolic links and unknown types skipped; the block is a tail
    when no entry was requested. `sort.Sort` is not stable, so Go may order entries of equal
    size differently on each call; the model fixes one order per block, ties in the order of
    the block's entry list. -/
def prefetchDirectDirBlock (parentPtr : BlockPointer) (children : List DirEntry)
    (isPrefetchNew : Bool) (action : A) (basePriority : Int) (s : BlockPrefetcher A) :
    Except Abort (Int × Bool × BlockPrefetcher A) := do
  let dirEntries := children.insertionSort fun a b => a.size ≤ b.size
  let newPriority := calculatePriority basePriority action
  let requested := dirEntries.filter fun e => e.type.isPrefetchable
  let (numBlocks, s) ← requestEach act newPriority parentPtr isPrefetchNew action
    (requested.map (·.ptr)) 0 [] s
  return (numBlocks, requested.isEmpty, s)

/-- `handlePrefetch(pre, isPrefetchNew, action, b)` for the record at `loc`: `none` is the
    `unknown block type` error, `some (numBlocks, isTail)` the result. -/
def handlePrefetch (loc : Nat) (isPrefetchNew : Bool) (action : A) (b : Block)
    (s : BlockPrefetcher A) : Except Abort (Option (Int × Bool) × BlockPrefetcher A) := do
  let req := (s.heap loc).req
  let childAction := act.childAction action b
  match b with
  | .file isInd iptrs =>
    if isInd then
      let (numBlocks, isTail, s) ← prefetchIndirectFileBlock act req.ptr iptrs isPrefetchNew
        childAction req.priority s
      return (some (numBlocks, isTail), s)
    else return (some (0, true), s)
  | .dir isInd iptrs children =>
    let (numBlocks, isTail, s) ← if isInd then
        prefetchIndirectDirBlock act req.ptr iptrs isPrefetchNew childAction req.priority s
      else prefetchDirectDirBlock act req.ptr children isPrefetchNew childAction req.priority s
    return (some (numBlocks, isTail), s)
  | .common => return (none, s)

/-- What `DoesCacheHaveSpace` answers for the request's cache type: no disk cache, an
    error, or whether there is room. -/
inductive DiskCacheSpace
  | noDiskCache
  | failed
  | answered (hasRoom : Bool)
  deriving DecidableEq, Repr

/-- `stopIfNeeded(req)`: a full sync cache reschedules a sync request and stops it;
    otherwise a full cache stops the request only if its action says so. -/
def stopIfNeeded (req : PrefetchRequest A) (space : DiskCacheSpace) (s : BlockPrefetcher A) :
    Bool × BlockPrefetcher A :=
  match space with
  | .answered false =>
    if act.sync req.action then (true, s.emit (.reschedule req)) else (act.stopIfFull req.action, s)
  | _ => (false, s)

end KbfsPrefetcher
