import KbfsPrefetcher.Termination

/-
  Two early exits of `run`'s request case that leave a record behind.

  The wait-channel fast path. A request that carries a reply channel, as
  `WaitChannelForBlockPrefetch` enqueues, is answered with the record's wait channel, or the
  closed one when the block has no record, and `run` moves on. Before that check, though,
  `run` has already called `clearRescheduleState` for the block. On a top block rescheduled
  with an armed timer the query disarms it, and the request the timer would have re-submitted
  is never sent (`waitQuery_disarms_timer`).

  The redundancy filter. Lines 781-789 skip a fetched block when the cache reports it as
  `TriggeredPrefetch` and the record's action agrees on `Sync` and `StopIfFull`
  (`isRedundant`). The status comes from the request, not from the record's
  `subtreeTriggered` that lines 806-848 read, so a record still counted as unfetched can be
  skipped: it stays untriggered, no record's count is decremented along any chain above it,
  and every ancestor keeps counting a block that has been fetched
  (`triggeredStatus_skips_untriggered`).
-/

namespace KbfsPrefetcher

open BlockPrefetcher

/-! ## A query disarms a reschedule timer -/

section WaitChannel

variable {A : Type}

/-- The request `WaitChannelForBlockPrefetch(ctx, ptr)` enqueues: priority 0, status
    `NoPrefetch`, the solo action, and a reply channel. -/
def waitChannelRequest (ptr : BlockPointer) (soloAction : A) : PrefetchRequest A :=
  ⟨ptr, 0, .noPrefetch, soloAction, true⟩

/-- The request a reschedule event for block 1 carries. -/
def rescheduleOne : PrefetchRequest Unit := ⟨⟨1, 0⟩, 0, .noPrefetch, (), false⟩

/-- Over any store: a reschedule of block 1, whose backoff does not stop, arms a timer to
    re-submit its request; a wait-channel query for block 1 then stops that timer. -/
theorem waitQuery_disarms_timer (store : Nat → Block) :
    ∃ s, Reachable ActionOps.unit store s ∧
      (s.rescheduled 1).bind (·.timer) = some rescheduleOne ∧
      ∃ s', handleEvent ActionOps.unit store
          (.request (waitChannelRequest ⟨1, 0⟩ ()) true .noDiskCache fun _ => true) s = .ok s' ∧
        s'.prefetches = s.prefetches ∧ (s'.rescheduled 1).bind (·.timer) = none :=
  ⟨_, .step (.reschedule rescheduleOne fun _ => false) .init rfl, rfl, _, rfl, rfl, rfl⟩

end WaitChannel

/-! ## The filter skips an untriggered record -/

/-- A fetched request for the block `id` as the cache reports it once an earlier session
    has triggered its prefetch. -/
def triggeredFetchEvent (id : Nat) : Event Unit :=
  .request ⟨⟨id, 0⟩, 0, .triggeredPrefetch, (), false⟩ true .noDiskCache fun _ => true

/-- After block 1 is prefetched, its record (at 0) counts the unfetched blocks 2 and 4, and
    block 2's record (at 1) is untriggered. A request for block 2, fetched, whose status says
    `TriggeredPrefetch` is filtered: no record changes, so block 2's record stays stored and
    untriggered, and block 1's count, along the one chain above it, still counts block 2. -/
theorem triggeredStatus_skips_untriggered :
    StoreAcyclic staleStore ∧ ∃ s s', Reachable ActionOps.unit staleStore s ∧
      s.prefetches 2 = some 1 ∧ (s.heap 1).subtreeTriggered = false ∧
      ParentEdge s 1 0 ∧ (s.heap 0).subtreeBlockCount = 2 ∧
      handleEvent ActionOps.unit staleStore (triggeredFetchEvent 2) s = .ok s' ∧
      s'.prefetches 2 = some 1 ∧ (s'.heap 1).subtreeTriggered = false ∧ s'.heap = s.heap :=
  ⟨staleStore_acyclic, _, _, Reachable.runEvents ActionOps.unit staleStore .init
    (show runEvents _ _ [fetchEvent 1] _ = _ from rfl), rfl, rfl, ⟨⟨1, 0⟩, by decide, rfl⟩, rfl,
    rfl, rfl, rfl, rfl⟩

end KbfsPrefetcher
