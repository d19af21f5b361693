import Mathlib.Logic.Function.Basic
import Mathlib.Data.List.Sort

/-
  The data model of `libkbfs/prefetcher.go`: block pointers and block shapes, the
  prefetch request, the `prefetch` record, the reschedule entry, and the state the
  worker goroutine (`blockPrefetcher.run`) owns.

  Pointers. Go's records are objects behind pointers: `p.prefetches` maps a block ID to a
  `*prefetch`, and `run` keeps using its `pre` after a walk may have deleted it from the
  map. The model keeps the objects in a heap (`heap`, indexed by location, `next` the
  next free one) and `prefetches` maps an ID to a location, so a write through a pointer
  is a write to the heap whether or not the map still holds that location.

  Left out, because no modelled function reads them: the block's contents and
  `NewEmpty` shell, the key metadata and cache lifetime passed through to the retriever,
  the per-record context (its cancellation is the `closed` flag), and the timer's
  duration. The retriever and the disk cache are external: what they answer is an input
  of each event (`Run`).
-/

namespace KbfsPrefetcher

/-- `BlockPointer`: the block's `ID` (a content hash, here a number) and the `RefNonce`
    that tells apart several references to content-identical blocks. -/
structure BlockPointer where
  id : Nat
  refNonce : Nat
  deriving DecidableEq, Repr, Inhabited

/-- `EntryType` of a directory entry; `unknown` stands for any other value. -/
inductive EntryType
  | file
  | exec
  | dir
  | sym
  | unknown
  deriving DecidableEq, Repr

/-- The entry types `prefetchDirectDirBlock` requests a block for. -/
def EntryType.isPrefetchable : EntryType → Bool
  | .file | .exec | .dir => true
  | .sym | .unknown => false

/-- A `DirEntry`: the pointer to the entry's root block, its type and its size. -/
structure DirEntry where
  ptr : BlockPointer
  type : EntryType
  size : Nat
  deriving DecidableEq, Repr

/-- The block shapes `handlePrefetch` tells apart: `*FileBlock` and `*DirBlock`, indirect
    (`IsInd`, with `IPtrs`) or direct (a directory's `Children`), and any other `Block`. -/
inductive Block
  | file (isInd : Bool) (iptrs : List BlockPointer)
  | dir (isInd : Bool) (iptrs : List BlockPointer) (children : List DirEntry)
  | common
  deriving DecidableEq, Repr

/-- Modelled from the spec: `Block.IsTail` is declared outside src/. The spec: "Tail
    blocks have no prefetchable children". -/
def Block.isTail : Block → Bool
  | .file true iptrs => iptrs.isEmpty
  | .file false _ => true
  | .dir true iptrs _ => iptrs.isEmpty
  | .dir false _ children => children.all fun e => !e.type.isPrefetchable
  | .common => true

/-- The pointers `handlePrefetch` passes to `request` for a block: the block store's child
    relation, as far as the prefetcher follows it. -/
def Block.childPtrs : Block → List BlockPointer
  | .file true iptrs => iptrs
  | .dir true iptrs _ => iptrs
  | .dir false _ children => (children.filter fun e => e.type.isPrefetchable).map (·.ptr)
  | _ => []

/-- `PrefetchStatus`, as the block cache reports it. -/
inductive PrefetchStatus
  | noPrefetch
  | triggeredPrefetch
  | finishedPrefetch
  deriving DecidableEq, Repr, Inhabited

/-- The methods of `BlockRequestAction` the prefetcher calls. The type is declared outside
    src/ and the spec names these methods without their bodies, so the model takes them as
    a parameter. -/
structure ActionOps (A : Type) where
  prefetch : A → Block → Bool
  sync : A → Bool
  deepSync : A → Bool
  stopIfFull : A → Bool
  combine : A → A → A
  childAction : A → Block → A

/-- An action set of one action that prefetches every block and never syncs, deep-syncs
    or stops on a full cache. -/
def ActionOps.unit : ActionOps Unit :=
  ⟨fun _ _ => true, fun _ => false, fun _ => false, fun _ => false, fun _ _ => (), fun _ _ => ()⟩

/-- `prefetchRequest`. `sendCh` says whether the request carries a reply channel, as the
    ones `WaitChannelForBlockPrefetch` enqueues do. -/
structure PrefetchRequest (A : Type) where
  ptr : BlockPointer
  priority : Int
  prefetchStatus : PrefetchStatus
  action : A
  sendCh : Bool
  deriving DecidableEq, Repr, Inhabited

/-- One `parents` map of a record: for each `RefNonce`, the parent pointers recorded
    under it (Go's `map[RefNonce]map[BlockPointer]bool`, iterated in list order). -/
abbrev Parents := List (Nat × List BlockPointer)

/-- `parents[refNonce]`; empty when there is no such bucket. -/
def bucketOf (n : Nat) : Parents → List BlockPointer
  | [] => []
  | (m, l) :: ps => if m = n then l else bucketOf n ps

/-- `delete(parents, refNonce)`. -/
def dropBucket (n : Nat) (ps : Parents) : Parents := ps.filter fun b => b.1 ≠ n

/-- `delete(parents[refNonce], pptr)`. -/
def dropParent (n : Nat) (pptr : BlockPointer) (ps : Parents) : Parents :=
  ps.map fun b => if b.1 = n then (b.1, b.2.erase pptr) else b

/-- `parents[refNonce][pptr] = true`, making the bucket when it is missing. -/
def addParent (n : Nat) (pptr : BlockPointer) : Parents → Parents
  | [] => [(n, [pptr])]
  | (m, l) :: ps =>
    if m = n then (m, if pptr ∈ l then l else l ++ [pptr]) :: ps else (m, l) :: addParent n pptr ps

/-- Every parent pointer of a map, in any bucket. -/
def allParents (ps : Parents) : List BlockPointer := ps.flatMap (·.2)

/-- `prefetch`: one record of the prefetch forest. `closed` says `Close` has run on it
    (its `waitCh` closed and its context canceled). -/
structure Prefetch (A : Type) where
  subtreeBlockCount : Int
  subtreeTriggered : Bool
  req : PrefetchRequest A
  parents : Parents
  closed : Bool
  deriving Inhabited

/-- `newPrefetch(count, triggered, req)`. -/
def newPrefetch {A : Type} (count : Int) (triggered : Bool) (req : PrefetchRequest A) :
    Prefetch A :=
  ⟨count, triggered, req, [], false⟩

/-- `rescheduledPrefetch`: the backoff (how often `NextBackOff` has been asked) and the
    armed `time.AfterFunc` timer, as the request it will hand to `triggerPrefetch`. -/
structure RescheduledPrefetch (A : Type) where
  backOffCalls : Nat
  timer : Option (PrefetchRequest A)

/-- What the worker hands to the outside world. -/
inductive Output (A : Type)
  /-- `retriever.Request` from `request`; its completion goes onto `inFlightFetches`. -/
  | fetch (ptr : BlockPointer) (priority : Int) (action : A)
  /-- `retriever.PutInCaches(..., FinishedPrefetch)`. -/
  | putFinished (ptr : BlockPointer)
  /-- `reschedulePrefetch(req)` from `stopIfNeeded`. -/
  | reschedule (req : PrefetchRequest A)
  /-- The reply on `req.sendCh`: the wait channel of the record at a location, or
      `closedCh` (`none`). -/
  | waitChannel (loc : Option Nat)

/-- The ways `run` panics. -/
inductive Abort
  /-- "completePrefetch overstepped its bounds" -/
  | completePrefetchOverstepped (id : Nat)
  /-- "decrementPrefetch overstepped its bounds" -/
  | decrementPrefetchOverstepped (id : Nat)
  /-- "the subtreeBlockCount for a block should never be < 0" -/
  | negativeSubtreeBlockCount (id : Nat)
  /-- "prefetch was in the tree, wasn't triggered, but had a block count of 0" -/
  | untriggeredZeroCount (id : Nat)
  /-- "prefetcher doesn't know about parent block when trying to record parent-child
      relationship" -/
  | unknownParent (parent child : Nat)
  /-- The Go runtime's "close of closed channel", from `prefetch.Close`. -/
  | closeOfClosedChannel (loc : Nat)
  /-- A parent walk deeper than the bound it was given: in Go, a recursion that only ends
      when the goroutine's stack is exhausted. -/
  | stackExhausted
  deriving DecidableEq, Repr

/-- The state `run` owns: `prefetches` and `rescheduled`, the heap of records, and the
    outputs so far (newest first). -/
structure BlockPrefetcher (A : Type) where
  prefetches : Nat → Option Nat
  heap : Nat → Prefetch A
  next : Nat
  rescheduled : Nat → Option (RescheduledPrefetch A)
  out : List (Output A)

namespace BlockPrefetcher

variable {A : Type}

/-- `newBlockPrefetcher`: both maps empty. -/
def empty [Inhabited A] : BlockPrefetcher A := ⟨fun _ => none, fun _ => default, 0, fun _ => none, []⟩

/-- A write through the pointer at `loc`. -/
def modify (s : BlockPrefetcher A) (loc : Nat) (g : Prefetch A → Prefetch A) :
    BlockPrefetcher A :=
  { s with heap := Function.update s.heap loc (g (s.heap loc)) }

/-- Allocate a record; returns its location. -/
def alloc (s : BlockPrefetcher A) (pp : Prefetch A) : Nat × BlockPrefetcher A :=
  (s.next, { s with heap := Function.update s.heap s.next pp, next := s.next + 1 })

/-- `p.prefetches[id] = pre`. -/
def setPrefetch (s : BlockPrefetcher A) (id loc : Nat) : BlockPrefetcher A :=
  { s with prefetches := Function.update s.prefetches id (some loc) }

/-- `delete(p.prefetches, id)`. -/
def deletePrefetch (s : BlockPrefetcher A) (id : Nat) : BlockPrefetcher A :=
  { s with prefetches := Function.update s.prefetches id none }

/-- `p.rescheduled[id] = rp`. -/
def setRescheduled (s : BlockPrefetcher A) (id : Nat) (rp : RescheduledPrefetch A) :
    BlockPrefetcher A :=
  { s with rescheduled := Function.update s.rescheduled id (some rp) }

/-- `delete(p.rescheduled, id)`. -/
def deleteRescheduled (s : BlockPrefetcher A) (id : Nat) : BlockPrefetcher A :=
  { s with rescheduled := Function.update s.rescheduled id none }

def emit (s : BlockPrefetcher A) (o : Output A) : BlockPrefetcher A :=
  { s with out := o :: s.out }

/-- `emit` on one path of a call only: the output `o` when `c` holds. -/
def emitIf (s : BlockPrefetcher A) (c : Bool) (o : Output A) : BlockPrefetcher A :=
  { s with out := if c then o :: s.out else s.out }

/-- `prefetch.Close` on the record at `loc`: closing its wait channel a second time is the
    runtime's panic. -/
def close (s : BlockPrefetcher A) (loc : Nat) : Except Abort (BlockPrefetcher A) :=
  if (s.heap loc).closed then .error (.closeOfClosedChannel loc)
  else .ok (s.modify loc fun pp => { pp with closed := true })

/-- The record stored under `id`, if any. -/
def record (s : BlockPrefetcher A) (id : Nat) : Option (Prefetch A) :=
  (s.prefetches id).map s.heap

@[simp] theorem modify_heap (s : BlockPrefetcher A) (loc : Nat) (g) (l : Nat) :
    (s.modify loc g).heap l = if l = loc then g (s.heap loc) else s.heap l := by
  simp [modify, Function.update_apply]

@[simp] theorem modify_prefetches (s : BlockPrefetcher A) (loc g) :
    (s.modify loc g).prefetches = s.prefetches := rfl

@[simp] theorem modify_next (s : BlockPrefetcher A) (loc g) : (s.modify loc g).next = s.next :=
  rfl

@[simp] theorem modify_rescheduled (s : BlockPrefetcher A) (loc g) :
    (s.modify loc g).rescheduled = s.rescheduled := rfl

theorem modify_modify (s : BlockPrefetcher A) (loc : Nat) (g h : Prefetch A → Prefetch A) :
    (s.modify loc g).modify loc h = s.modify loc fun pp => h (g pp) := by
  simp [modify, Function.update_idem]

theorem modify_parents_self (s : BlockPrefetcher A) (loc : Nat) :
    (s.modify loc fun pp => { pp with parents := (s.heap loc).parents }) = s := by
  have : ({ s.heap loc with parents := (s.heap loc).parents } : Prefetch A) = s.heap loc := rfl
  simp only [modify, this, Function.update_eq_self]

@[simp] theorem setPrefetch_prefetches (s : BlockPrefetcher A) (id loc i : Nat) :
    (s.setPrefetch id loc).prefetches i = if i = id then some loc else s.prefetches i := by
  simp [setPrefetch, Function.update_apply]

@[simp] theorem setPrefetch_heap (s : BlockPrefetcher A) (id loc) :
    (s.setPrefetch id loc).heap = s.heap := rfl

@[simp] theorem setPrefetch_next (s : BlockPrefetcher A) (id loc) :
    (s.setPrefetch id loc).next = s.next := rfl

@[simp] theorem setPrefetch_rescheduled (s : BlockPrefetcher A) (id loc) :
    (s.setPrefetch id loc).rescheduled = s.rescheduled := rfl

/-- Storing the record an entry already names changes nothing. -/
theorem setPrefetch_of_eq {s : BlockPrefetcher A} {id loc : Nat} (h : s.prefetches id = some loc) :
    s.setPrefetch id loc = s := by
  have e : Function.update s.prefetches id (some loc) = s.prefetches :=
    Function.update_eq_self_iff.2 h.symm
  unfold setPrefetch
  rw [e]

@[simp] theorem deletePrefetch_prefetches (s : BlockPrefetcher A) (id i : Nat) :
    (s.deletePrefetch id).prefetches i = if i = id then none else s.prefetches i := by
  simp [deletePrefetch, Function.update_apply]

@[simp] theorem deletePrefetch_heap (s : BlockPrefetcher A) (id) :
    (s.deletePrefetch id).heap = s.heap := rfl

@[simp] theorem deletePrefetch_next (s : BlockPrefetcher A) (id) :
    (s.deletePrefetch id).next = s.next := rfl

@[simp] theorem deletePrefetch_rescheduled (s : BlockPrefetcher A) (id) :
    (s.deletePrefetch id).rescheduled = s.rescheduled := rfl

@[simp] theorem setRescheduled_prefetches (s : BlockPrefetcher A) (id rp) :
    (s.setRescheduled id rp).prefetches = s.prefetches := rfl

@[simp] theorem setRescheduled_heap (s : BlockPrefetcher A) (id rp) :
    (s.setRescheduled id rp).heap = s.heap := rfl

@[simp] theorem setRescheduled_next (s : BlockPrefetcher A) (id rp) :
    (s.setRescheduled id rp).next = s.next := rfl

@[simp] theorem setRescheduled_rescheduled (s : BlockPrefetcher A) (id rp) (i : Nat) :
    (s.setRescheduled id rp).rescheduled i = if i = id then some rp else s.rescheduled i := by
  simp [setRescheduled, Function.update_apply]

@[simp] theorem deleteRescheduled_prefetches (s : BlockPrefetcher A) (id) :
    (s.deleteRescheduled id).prefetches = s.prefetches := rfl

@[simp] theorem deleteRescheduled_heap (s : BlockPrefetcher A) (id) :
    (s.deleteRescheduled id).heap = s.heap := rfl

@[simp] theorem deleteRescheduled_next (s : BlockPrefetcher A) (id) :
    (s.deleteRescheduled id).next = s.next := rfl

@[simp] theorem deleteRescheduled_rescheduled (s : BlockPrefetcher A) (id i : Nat) :
    (s.deleteRescheduled id).rescheduled i = if i = id then none else s.rescheduled i := by
  simp [deleteRescheduled, Function.update_apply]

@[simp] theorem emit_prefetches (s : BlockPrefetcher A) (o) :
    (s.emit o).prefetches = s.prefetches := rfl

@[simp] theorem emit_heap (s : BlockPrefetcher A) (o) : (s.emit o).heap = s.heap := rfl

@[simp] theorem emit_next (s : BlockPrefetcher A) (o) : (s.emit o).next = s.next := rfl

@[simp] theorem emit_rescheduled (s : BlockPrefetcher A) (o) :
    (s.emit o).rescheduled = s.rescheduled := rfl

@[simp] theorem emitIf_prefetches (s : BlockPrefetcher A) (c o) :
    (s.emitIf c o).prefetches = s.prefetches := rfl

@[simp] theorem emitIf_heap (s : BlockPrefetcher A) (c o) : (s.emitIf c o).heap = s.heap := rfl

@[simp] theorem emitIf_next (s : BlockPrefetcher A) (c o) : (s.emitIf c o).next = s.next := rfl

@[simp] theorem emitIf_rescheduled (s : BlockPrefetcher A) (c o) :
    (s.emitIf c o).rescheduled = s.rescheduled := rfl

theorem emitIf_out_suffix (s : BlockPrefetcher A) (c : Bool) (o : Output A) :
    s.out <:+ (s.emitIf c o).out := by
  cases c
  exacts [List.suffix_refl _, List.suffix_cons _ _]

@[simp] theorem alloc_fst (s : BlockPrefetcher A) (pp) : (s.alloc pp).1 = s.next := rfl

@[simp] theorem alloc_prefetches (s : BlockPrefetcher A) (pp) :
    (s.alloc pp).2.prefetches = s.prefetches := rfl

@[simp] theorem alloc_heap (s : BlockPrefetcher A) (pp) (l : Nat) :
    (s.alloc pp).2.heap l = if l = s.next then pp else s.heap l := by
  simp [alloc, Function.update_apply]

@[simp] theorem alloc_next (s : BlockPrefetcher A) (pp) : (s.alloc pp).2.next = s.next + 1 :=
  rfl

@[simp] theorem alloc_rescheduled (s : BlockPrefetcher A) (pp) :
    (s.alloc pp).2.rescheduled = s.rescheduled := rfl

/-- Only `emit` and `emitIf` write the outputs. -/
@[simp] theorem modify_out (s : BlockPrefetcher A) (loc g) : (s.modify loc g).out = s.out := rfl

@[simp] theorem alloc_out (s : BlockPrefetcher A) (pp) : (s.alloc pp).2.out = s.out := rfl

@[simp] theorem setPrefetch_out (s : BlockPrefetcher A) (id loc) : (s.setPrefetch id loc).out = s.out :=
  rfl

@[simp] theorem emit_out (s : BlockPrefetcher A) (o) : (s.emit o).out = o :: s.out := rfl

theorem close_eq_ok {s s' : BlockPrefetcher A} {loc : Nat} (h : s.close loc = .ok s') :
    (s.heap loc).closed = false ∧ s' = s.modify loc fun pp => { pp with closed := true } := by
  unfold close at h
  split at h
  · cases h
  · rename_i hc
    exact ⟨by simpa using hc, (Except.ok.inj h).symm⟩

end BlockPrefetcher

/-- A bind that ends normally: its first computation ended normally. -/
theorem Except.bind_eq_ok {ε α β : Type} {x : Except ε α} {f : α → Except ε β} {b : β}
    (h : x >>= f = .ok b) : ∃ a, x = .ok a ∧ f a = .ok b := by
  cases x with
  | error e => cases h
  | ok a => exact ⟨a, rfl, h⟩

end KbfsPrefetcher
