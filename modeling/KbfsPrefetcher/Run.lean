import KbfsPrefetcher.Request

/-
  `blockPrefetcher.run`: the worker's handling of one event from each of its input
  channels, and the states it can reach.

  An event carries what the outside world answers while `run` handles it: whether the
  retriever's fetch of the block succeeds (`fetched`), what the disk cache says about space
  (`space`), whether the `BlockRequestSolo` retrieval `completePrefetch` makes for a block
  it completes succeeds (`solo`, by block ID), and for a reschedule what each backoff's
  `NextBackOff` answers (`stops`). The retriever is content-addressed: the block fetched for an ID is
  `store id`. The first branch of the request case (`pre.req == nil`) is left out: every
  record is made with a request and no assignment clears it.

  `Reachable` is every state a run of events reaches from the empty prefetcher. Go
  iterates maps in a random order; the model iterates parent maps in list order, and
  `Reachable.reorder` lets any run reorder them between events.
-/

namespace KbfsPrefetcher

open BlockPrefetcher

variable {A : Type} [DecidableEq A] (act : ActionOps A) (store : Nat → Block)

/-- The depth bound of every walk: one more than the records allocated so far. -/
def BlockPrefetcher.walkFuel (s : BlockPrefetcher A) : Nat := s.next + 1

/-- The cancel case: walk up the pointer's ref-nonce chain, canceling. -/
def handleCancel (ptr : BlockPointer) (s : BlockPrefetcher A) : Except Abort (BlockPrefetcher A) :=
  match s.prefetches ptr.id with
  | none => pure s
  | some loc => applyToPtrParentsRecursive cancelPrefetch s.walkFuel ptr loc s

/-- The reschedule case: make a placeholder record (count 1) or give the existing one this
    request, then reschedule the top blocks above it and cancel the rest. -/
def handleReschedule (req : PrefetchRequest A) (stops : Nat → Bool) (s : BlockPrefetcher A) :
    Except Abort (BlockPrefetcher A) :=
  let (loc, s) := match s.prefetches req.ptr.id with
    | none =>
      let (loc, s) := s.alloc (newPrefetch 1 false req)
      (loc, s.setPrefetch req.ptr.id loc)
    | some loc => (loc, s.modify loc fun pp => { pp with req := req })
  applyToParentsRecursive (rescheduleTopBlock stops) s.walkFuel req.ptr.id loc s

/-- The request case, lines 733-766: a finished or tail block completes its whole record,
    or, without a record, is marked finished in the cache. -/
def finishRequest (req : PrefetchRequest A) (solo : Nat → Bool) (waiting : Option Nat)
    (s : BlockPrefetcher A) : Except Abort (BlockPrefetcher A) :=
  match waiting with
  | some loc =>
    if (s.heap loc).subtreeBlockCount < 0 then .error (.negativeSubtreeBlockCount req.ptr.id)
    else applyToParentsRecursive (completePrefetch (s.heap loc).subtreeBlockCount solo) s.walkFuel
      req.ptr.id loc s
  | none => pure (if req.prefetchStatus ≠ .finishedPrefetch then s.emit (.putFinished req.ptr) else s)

/-- Lines 768-780: the request's action does not prefetch the block; cancel the record's
    ref-nonce chain unless the record's own action prefetches it. -/
def skipRequest (req : PrefetchRequest A) (b : Block) (waiting : Option Nat)
    (s : BlockPrefetcher A) : Except Abort (BlockPrefetcher A) :=
  match waiting with
  | some loc =>
    if !act.prefetch (s.heap loc).req.action b then
      applyToPtrParentsRecursive cancelPrefetch s.walkFuel req.ptr loc s
    else pure s
  | none => pure s

/-- Lines 781-789, the redundancy filter: the cache says the prefetch was triggered, the
    request is no deep sync, and a record's action agrees on `Sync` and `StopIfFull`. -/
def isRedundant (req : PrefetchRequest A) (waiting : Option Nat) (s : BlockPrefetcher A) : Bool :=
  req.prefetchStatus = .triggeredPrefetch && !act.deepSync req.action &&
    match waiting with
    | some loc =>
      act.sync req.action == act.sync (s.heap loc).req.action &&
        act.stopIfFull req.action == act.stopIfFull (s.heap loc).req.action
    | none => false

/-- Lines 804-859: account for the fetch in the record, or make a triggered record with
    count 0. Returns the location to enumerate children from, or `none` to stop. -/
def updateRecord (req : PrefetchRequest A) (waiting : Option Nat) (s : BlockPrefetcher A) :
    Except Abort (Option Nat × BlockPrefetcher A) :=
  match waiting with
  | some loc =>
    let newAction := act.combine (s.heap loc).req.action req.action
    if (s.heap loc).subtreeTriggered then do
      let s ← if (s.heap loc).subtreeBlockCount = 0 then
          applyToPtrParentsRecursive cancelPrefetch s.walkFuel req.ptr loc s
        else pure s
      if newAction ≠ (s.heap loc).req.action then
        return (some loc, s.modify loc fun pp => { pp with req := { pp.req with action := newAction } })
      return (none, s)
    else do
      if (s.heap loc).subtreeBlockCount = 0 then throw (.untriggeredZeroCount req.ptr.id)
      let s ← applyToParentsRecursive decrementPrefetch s.walkFuel req.ptr.id loc s
      return (some loc, s.modify loc fun pp =>
        { pp with subtreeTriggered := true, req := { pp.req with action := newAction } })
  | none =>
    let (loc, s) := s.alloc (newPrefetch 0 true req)
    pure (some loc, s.setPrefetch req.ptr.id loc)

/-- Lines 871-927: enumerate the children; a tail completes up the tree with 0, a nonzero
    `numBlocks` is added to the record and every ancestor. -/
def prefetchChildren (req : PrefetchRequest A) (solo : Nat → Bool) (isPrefetchNew : Bool)
    (b : Block) (loc : Nat) (s : BlockPrefetcher A) : Except Abort (BlockPrefetcher A) := do
  let (result, s) ← handlePrefetch act loc isPrefetchNew req.action b s
  match result with
  | none => return s
  | some (numBlocks, isTail) =>
    if isTail then
      applyToParentsRecursive (completePrefetch 0 solo) s.walkFuel req.ptr.id loc s
    else if numBlocks = 0 then return s
    else
      let s := if isPrefetchNew then s.setPrefetch req.ptr.id loc else s
      applyToParentsRecursive (addSubtreeBlocks numBlocks) s.walkFuel req.ptr.id loc s

/-- The request case of `run`. -/
def handleRequest (req : PrefetchRequest A) (fetched : Bool) (space : DiskCacheSpace)
    (solo : Nat → Bool) (s : BlockPrefetcher A) : Except Abort (BlockPrefetcher A) := do
  let waiting := s.prefetches req.ptr.id
  let s := s.clearRescheduleState req.ptr.id
  if req.sendCh then return s.emit (.waitChannel waiting)
  if !fetched then return s
  let b := store req.ptr.id
  if req.prefetchStatus = .finishedPrefetch || b.isTail then return ← finishRequest req solo waiting s
  if !act.prefetch req.action b then return ← skipRequest act req b waiting s
  if isRedundant act req waiting s then return s
  let (stop, s) := stopIfNeeded act req space s
  if stop then return s
  let (loc?, s) ← updateRecord act req waiting s
  match loc? with
  | none => return s
  | some loc => prefetchChildren act req solo waiting.isNone b loc s

/-- One event `run` takes from its input channels, with the outside world's answers. -/
inductive Event (A : Type)
  | request (req : PrefetchRequest A) (fetched : Bool) (space : DiskCacheSpace) (solo : Nat → Bool)
  | cancel (ptr : BlockPointer)
  | reschedule (req : PrefetchRequest A) (stops : Nat → Bool)

/-- One iteration of `run`'s loop. -/
def handleEvent : Event A → BlockPrefetcher A → Except Abort (BlockPrefetcher A)
  | .request req fetched space solo, s => handleRequest act store req fetched space solo s
  | .cancel ptr, s => handleCancel ptr s
  | .reschedule req stops, s => handleReschedule req stops s

/-- A sequence of events, stopping at the first panic. -/
def runEvents (es : List (Event A)) (s : BlockPrefetcher A) : Except Abort (BlockPrefetcher A) :=
  es.foldlM (fun s e => handleEvent act store e s) s

/-- Two records that differ at most in the order of their parent buckets and of the
    pointers in each bucket. -/
def Prefetch.SameParents (r r' : Prefetch A) : Prop :=
  r' = { r with parents := r'.parents } ∧
    ∃ ps, ps.Perm r.parents ∧ List.Forall₂ (fun b b' => b.1 = b'.1 ∧ b.2.Perm b'.2) ps r'.parents

/-- The states `run` reaches from `newBlockPrefetcher` under any events and any order of
    map iteration. -/
inductive Reachable [Inhabited A] : BlockPrefetcher A → Prop
  | init : Reachable .empty
  | step {s s' : BlockPrefetcher A} (e : Event A) :
      Reachable s → handleEvent act store e s = .ok s' → Reachable s'
  | reorder {s : BlockPrefetcher A} (heap : Nat → Prefetch A) :
      Reachable s → (∀ loc, (s.heap loc).SameParents (heap loc)) → Reachable { s with heap }

/-- A run of events from a reachable state ends in a reachable state. -/
theorem Reachable.runEvents [Inhabited A] {es : List (Event A)} {s s' : BlockPrefetcher A}
    (h : Reachable act store s) (he : runEvents act store es s = .ok s') :
    Reachable act store s' := by
  induction es generalizing s with
  | nil => cases he; exact h
  | cons e es ih =>
    simp only [KbfsPrefetcher.runEvents, List.foldlM_cons] at he
    obtain ⟨s1, h1, he⟩ := Except.bind_eq_ok he
    exact ih (.step e h h1) he

end KbfsPrefetcher
