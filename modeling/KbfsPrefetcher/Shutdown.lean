import KbfsPrefetcher.System
import KbfsPrefetcher.Termination

/-
  Shutdown, from the callers' side and from the records'.

  `run`'s deferred function closes `doneCh` and then the three input channels, while
  `CancelPrefetch`, `triggerPrefetch`, `reschedulePrefetch` and `WaitChannelForBlockPrefetch`
  keep sending on them inside a `select` whose other case is `shutdownCh`. Once `run` has
  returned, `shutdownCh` is closed too (`SysInv`), so both cases of a new caller's
  `select` are ready and Go may pick the send: the process panics with a send on a closed
  channel (`exited_call_may_panic`, and the run of moves `cancelAfterExit_panics`).

  `run` returns once its buffers and `inFlightFetches` are empty, without visiting the
  records left in `prefetches`. Every stored record of a reachable state is open (`Wf`),
  and after `run` has returned no move changes the worker's state, so those records'
  wait channels stay open for good (`exited_records_stay_open`); a prefetch whose
  children were requested but never fetched leaves such records (`exit_leaves_records_open`).
-/

namespace KbfsPrefetcher

open BlockPrefetcher

variable {A : Type} [DecidableEq A] {act : ActionOps A} {store : Nat → Block}

/-! ## Calls after `run` has returned -/

/-- From every reachable state where `run` has returned, a new caller's `select` has both
    cases ready: its send, which panics, and `shutdownCh`. -/
theorem exited_call_may_panic [Inhabited A] {s : System A} (h : SysReachable act store s)
    (hx : s.run = .exited) (e : Event A) :
    s.shutdownClosed = true ∧ ∃ s', step act store (.call e) s = some (.ok s') ∧
      step act store (.send s.callers.length) s' = some (.error .sendOnClosedChannel) ∧
      step act store (.skip s.callers.length) s' = some (.ok s) := by
  have hi := sysReachable_inv act store h
  have hc : s.shutdownClosed = true := hi.loopClosed (by rw [hi.runSignalled (by simp [hx])]; simp)
  refine ⟨hc, _, rfl, ?_, ?_⟩
  · simp [step, hx]
  · have he : (s.callers ++ [e]).eraseIdx s.callers.length = s.callers := by
      simp [List.eraseIdx_append_of_length_le]
    simp only [step]
    rw [if_pos (by simp [hc]), he]

/-- `Shutdown` with nothing in flight: `shutdownLoop` stops watching and signals, `run`
    starts shutting down and returns. -/
def shutdownMoves : List (Move A) := [.shutdown, .stopWatching, .signalAlmostDone, .startShutdown, .exit]

/-- After `shutdownMoves`, `CancelPrefetch` of block 1 may take its send and panic. -/
theorem cancelAfterExit_panics (store : Nat → Block) :
    runMoves ActionOps.unit store (shutdownMoves ++ [.call (.cancel ⟨1, 0⟩), .send 0]) .init =
      some (.error .sendOnClosedChannel) :=
  rfl

/-- The state `shutdownMoves` reaches satisfies the hypotheses of `exited_call_may_panic`. -/
theorem shutdownMoves_call_may_panic :
    ∃ s, SysReachable ActionOps.unit staleStore s ∧ s.run = .exited ∧
      (s.shutdownClosed = true ∧
        ∃ s', step ActionOps.unit staleStore (.call (.cancel ⟨1, 0⟩)) s = some (.ok s') ∧
        step ActionOps.unit staleStore (.send s.callers.length) s' = some (.error .sendOnClosedChannel) ∧
        step ActionOps.unit staleStore (.skip s.callers.length) s' = some (.ok s)) :=
  have h := SysReachable.runMoves ActionOps.unit staleStore .init
    (show runMoves _ _ shutdownMoves _ = _ from rfl)
  ⟨_, h, rfl, exited_call_may_panic h rfl _⟩

/-! ## Records left at exit -/

/-- Once `run` has returned, every record still stored is open, and no later move changes
    the worker's state: its wait channel is never closed. -/
theorem exited_records_stay_open [Inhabited A] {s : System A} (h : SysReachable act store s)
    (hx : s.run = .exited) :
    (∀ id loc, s.pf.prefetches id = some loc → (s.pf.heap loc).closed = false) ∧
    ∀ {s'}, Relation.ReflTransGen (SysStep act store) s s' → s'.run = .exited ∧ s'.pf = s.pf :=
  ⟨(sysReachable_inv act store h).wf.isOpen, fun h' => exited_stays act store h' hx⟩

/-- Block 1 is requested and handled, which stores its record and those of its children 2
    and 4 and fetches both; `shutdownLoop` waits for the fetches, which fail, so no request
    for a child follows. Then `Shutdown`, and `run` returns. -/
def leftOpenMoves : List (Move Unit) :=
  [.call (fetchEvent 1), .send 0, .handle .request, .awaitFetch, .awaitFetch] ++ shutdownMoves

/-- The state `leftOpenMoves` reaches satisfies the hypotheses of
    `exited_records_stay_open`. -/
theorem leftOpenMoves_records_stay_open :
    ∃ s, SysReachable ActionOps.unit staleStore s ∧ s.run = .exited ∧
      ((∀ id loc, s.pf.prefetches id = some loc → (s.pf.heap loc).closed = false) ∧
      ∀ {s'}, Relation.ReflTransGen (SysStep ActionOps.unit staleStore) s s' →
        s'.run = .exited ∧ s'.pf = s.pf) :=
  have h := SysReachable.runMoves ActionOps.unit staleStore .init
    (show runMoves _ _ leftOpenMoves _ = _ from rfl)
  ⟨_, h, rfl, exited_records_stay_open h rfl⟩

/-- After `leftOpenMoves`, `run` has returned and `doneCh` is closed, with the records of
    blocks 1, 2 and 4 still stored and their wait channels open. -/
theorem exit_leaves_records_open :
    ∃ s, SysReachable ActionOps.unit staleStore s ∧ s.run = .exited ∧
      s.pf.prefetches 1 = some 0 ∧ s.pf.prefetches 2 = some 1 ∧ s.pf.prefetches 4 = some 2 ∧
      (s.pf.heap 0).closed = false ∧ (s.pf.heap 1).closed = false ∧ (s.pf.heap 2).closed = false :=
  ⟨_, SysReachable.runMoves ActionOps.unit staleStore .init
    (show runMoves _ _ leftOpenMoves _ = _ from rfl), rfl, rfl, rfl, rfl, rfl, rfl, rfl⟩

end KbfsPrefetcher
