import KbfsPrefetcher.Types

/-
  The two parent walks of `prefetcher.go` (`applyToPtrParentsRecursive`,
  `applyToParentsRecursive`) and the functions `run` hands them: `completePrefetch`,
  `decrementPrefetch`, the closure adding `numBlocks`, `cancelPrefetch` and
  `rescheduleTopBlock`, with `clearRescheduleState`.

  A walk is post-order: it first recurses into every parent whose ID still has a record,
  dropping the pointers of parents that have none and the buckets left empty, and only
  then applies `f` to the record it was called on. The recursion has no bound in Go; here
  it takes a depth bound, and running out of it is `Abort.stackExhausted`. `Termination`
  shows that on every reachable state the bound `run` passes is never reached.
-/

namespace KbfsPrefetcher

open BlockPrefetcher

variable {A : Type}

/-- A function a walk applies to a record: the record's ID (or pointer) and location. -/
abbrev WalkFn (A : Type) (κ : Type) := κ → Nat → BlockPrefetcher A → Except Abort (BlockPrefetcher A)

/-- `clearRescheduleState(blockID)`: stop and forget the armed timer, keep the backoff. -/
def BlockPrefetcher.clearRescheduleState (s : BlockPrefetcher A) (blockID : Nat) : BlockPrefetcher A :=
  match s.rescheduled blockID with
  | none => s
  | some rp => s.setRescheduled blockID { rp with timer := none }

@[simp] theorem BlockPrefetcher.clearRescheduleState_heap (s : BlockPrefetcher A) (id : Nat) :
    (s.clearRescheduleState id).heap = s.heap := by
  unfold BlockPrefetcher.clearRescheduleState
  split <;> rfl

@[simp] theorem BlockPrefetcher.clearRescheduleState_prefetches (s : BlockPrefetcher A) (id : Nat) :
    (s.clearRescheduleState id).prefetches = s.prefetches := by
  unfold BlockPrefetcher.clearRescheduleState
  split <;> rfl

@[simp] theorem BlockPrefetcher.clearRescheduleState_next (s : BlockPrefetcher A) (id : Nat) :
    (s.clearRescheduleState id).next = s.next := by
  unfold BlockPrefetcher.clearRescheduleState
  split <;> rfl

@[simp] theorem BlockPrefetcher.clearRescheduleState_out (s : BlockPrefetcher A) (id : Nat) :
    (s.clearRescheduleState id).out = s.out := by
  unfold BlockPrefetcher.clearRescheduleState
  split <;> rfl

/-- Whether an output writes the block `id` to the caches as `FinishedPrefetch`. -/
def Output.finishesId (id : Nat) : Output A → Bool
  | .putFinished ptr => ptr.id == id
  | _ => false

/-- Whether some output so far wrote the block `id` to the caches as `FinishedPrefetch`. -/
def BlockPrefetcher.finished (s : BlockPrefetcher A) (id : Nat) : Bool :=
  s.out.any (Output.finishesId id)

namespace BlockPrefetcher

@[simp] theorem finished_emit (s : BlockPrefetcher A) (o : Output A) (id : Nat) :
    (s.emit o).finished id = (o.finishesId id || s.finished id) := by
  simp [finished, emit]

@[simp] theorem finished_emitIf (s : BlockPrefetcher A) (c : Bool) (o : Output A) (id : Nat) :
    (s.emitIf c o).finished id = (c && o.finishesId id || s.finished id) := by
  cases c <;> simp [finished, emitIf]

@[simp] theorem finished_modify (s : BlockPrefetcher A) (loc g) :
    (s.modify loc g).finished = s.finished := rfl

@[simp] theorem finished_alloc (s : BlockPrefetcher A) (pp) :
    (s.alloc pp).2.finished = s.finished := rfl

@[simp] theorem finished_setPrefetch (s : BlockPrefetcher A) (id loc) :
    (s.setPrefetch id loc).finished = s.finished := rfl

@[simp] theorem finished_deletePrefetch (s : BlockPrefetcher A) (id) :
    (s.deletePrefetch id).finished = s.finished := rfl

@[simp] theorem finished_deleteRescheduled (s : BlockPrefetcher A) (id) :
    (s.deleteRescheduled id).finished = s.finished := rfl

@[simp] theorem finished_clearRescheduleState (s : BlockPrefetcher A) (id : Nat) :
    (s.clearRescheduleState id).finished = s.finished := by
  unfold finished
  rw [clearRescheduleState_out]

end BlockPrefetcher

theorem BlockPrefetcher.clearRescheduleState_rescheduled (s : BlockPrefetcher A) (id i : Nat) :
    (s.clearRescheduleState id).rescheduled i =
      if i = id then (s.rescheduled i).map fun rp => { rp with timer := none } else s.rescheduled i := by
  unfold BlockPrefetcher.clearRescheduleState
  split <;> rename_i h <;> by_cases hi : i = id <;> simp [hi, h]

theorem BlockPrefetcher.clearRescheduleState_rescheduled_ne (s : BlockPrefetcher A) {id i : Nat}
    (h : i ≠ id) : (s.clearRescheduleState id).rescheduled i = s.rescheduled i := by
  unfold BlockPrefetcher.clearRescheduleState
  split
  · rfl
  · simp [h]

/-- One iteration of a walk's inner loop at the record `loc`, over the pointer `pptr` of
    its bucket `refNonce`: recurse into a parent that still has a record, and drop the
    pointer of one that has none. -/
def visitParent (recur : WalkFn A BlockPointer) (loc refNonce : Nat) (s : BlockPrefetcher A)
    (pptr : BlockPointer) : Except Abort (BlockPrefetcher A) :=
  match s.prefetches pptr.id with
  | none => pure (s.modify loc fun pp => { pp with parents := dropParent refNonce pptr pp.parents })
  | some parent => recur pptr parent s

/-- `if len(refMap) == 0 { delete(pre.parents, refNonce) }`, after a bucket's loop. -/
def dropIfEmpty (loc refNonce : Nat) (s : BlockPrefetcher A) : BlockPrefetcher A :=
  if (bucketOf refNonce (s.heap loc).parents).isEmpty then
    s.modify loc fun pp => { pp with parents := dropBucket refNonce pp.parents }
  else s

/-- The loop of `applyToPtrParentsRecursive` over the bucket `refNonce` of the record at
    `loc`, then the bucket's deletion if it ended empty. -/
def visitPtrParents (recur : WalkFn A BlockPointer) (loc refNonce : Nat) (s : BlockPrefetcher A) :
    Except Abort (BlockPrefetcher A) := do
  let s ← (bucketOf refNonce (s.heap loc).parents).foldlM (visitParent recur loc refNonce) s
  pure (dropIfEmpty loc refNonce s)

/-- The loop of `applyToParentsRecursive` over every bucket of the record at `loc`. -/
def visitAllParents (recur : WalkFn A BlockPointer) (loc : Nat) (s : BlockPrefetcher A) :
    Except Abort (BlockPrefetcher A) :=
  (s.heap loc).parents.foldlM (fun s b => do
    let s ← b.2.foldlM (visitParent recur loc b.1) s
    pure (dropIfEmpty loc b.1 s)) s

/-- `applyToPtrParentsRecursive(f, ptr, pre)`: the walk that follows only the bucket of the
    `RefNonce` of the pointer a record was reached through. -/
def applyToPtrParentsRecursive (f : WalkFn A BlockPointer) :
    Nat → BlockPointer → Nat → BlockPrefetcher A → Except Abort (BlockPrefetcher A)
  | 0, _, _, _ => .error .stackExhausted
  | fuel + 1, ptr, loc, s => do
    let s ← visitPtrParents (fun pptr parent s => applyToPtrParentsRecursive f fuel pptr parent s)
      loc ptr.refNonce s
    f ptr loc s

/-- `applyToParentsRecursive(f, blockID, pre)`: the walk through every bucket. -/
def applyToParentsRecursive (f : WalkFn A Nat) :
    Nat → Nat → Nat → BlockPrefetcher A → Except Abort (BlockPrefetcher A)
  | 0, _, _, _ => .error .stackExhausted
  | fuel + 1, blockID, loc, s => do
    let s ← visitAllParents (fun pptr parent s => applyToParentsRecursive f fuel pptr.id parent s)
      loc s
    f blockID loc s

/-- `completePrefetch(numBlocks)`: at 0 the record leaves `prefetches` and its block is
    fetched again with `BlockRequestSolo`. `solo blockID` is the answer of that retrieval:
    on success the block is written to the caches as `FinishedPrefetch`, on failure the
    function returns first (lines 271-275). The deferred `Close` runs on both paths. -/
def completePrefetch (numBlocks : Int) (solo : Nat → Bool) : WalkFn A Nat := fun blockID loc s => do
  let s := s.modify loc fun pp => { pp with subtreeBlockCount := pp.subtreeBlockCount - numBlocks }
  let pp := s.heap loc
  if pp.subtreeBlockCount < 0 then throw (.completePrefetchOverstepped blockID)
  if pp.subtreeBlockCount ≠ 0 then return s
  let s := (((s.deletePrefetch blockID).clearRescheduleState blockID).deleteRescheduled
    blockID).emitIf (solo blockID) (.putFinished pp.req.ptr)
  s.close loc

/-- `decrementPrefetch`. -/
def decrementPrefetch : WalkFn A Nat := fun blockID loc s => do
  let s := s.modify loc fun pp => { pp with subtreeBlockCount := pp.subtreeBlockCount - 1 }
  if (s.heap loc).subtreeBlockCount < 0 then throw (.decrementPrefetchOverstepped blockID)
  return s

/-- The closure at the end of `run`'s request case: `pp.subtreeBlockCount += numBlocks`. -/
def addSubtreeBlocks (numBlocks : Int) : WalkFn A Nat := fun _ loc s =>
  pure (s.modify loc fun pp => { pp with subtreeBlockCount := pp.subtreeBlockCount + numBlocks })

/-- `cancelPrefetch(ptr, pp)`: drop the bucket of `ptr.RefNonce`; the record goes once no
    bucket is left. -/
def cancelPrefetch : WalkFn A BlockPointer := fun ptr loc s => do
  let s := s.modify loc fun pp => { pp with parents := dropBucket ptr.refNonce pp.parents }
  if !(s.heap loc).parents.isEmpty then return s
  let s ← (s.deletePrefetch ptr.id).close loc
  return (s.clearRescheduleState ptr.id).deleteRescheduled ptr.id

/-- `rescheduleTopBlock(blockID, pp)`. A record with parents is canceled through each of
    its buckets; a top block moves from `prefetches` to `rescheduled`, and unless a timer
    is armed already its backoff is asked for a delay. `stops id` is the answer of that
    `NextBackOff`: `Stop`, or a delay after which the timer re-submits the record's
    request. -/
def rescheduleTopBlock (stops : Nat → Bool) : WalkFn A Nat := fun blockID loc s => do
  let pp := s.heap loc
  if !pp.parents.isEmpty then
    return ← pp.parents.foldlM (fun s b => cancelPrefetch ⟨blockID, b.1⟩ loc s) s
  let s ← (s.deletePrefetch blockID).close loc
  let rp := (s.rescheduled blockID).getD ⟨0, none⟩
  if rp.timer.isSome then return s.setRescheduled blockID rp
  let rp := { rp with backOffCalls := rp.backOffCalls + 1 }
  if stops blockID then return s.setRescheduled blockID rp
  return s.setRescheduled blockID { rp with timer := some pp.req }

end KbfsPrefetcher
