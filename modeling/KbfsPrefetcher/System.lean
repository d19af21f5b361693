import KbfsPrefetcher.Edges

/-
  The prefetcher as a system of goroutines: `run`, `shutdownLoop`, the callers of
  `ProcessBlockForPrefetch`, `WaitChannelForBlockPrefetch`, `CancelPrefetch` and the
  reschedule timers, and `Shutdown`.

  Model (read this before the theorems):
  * The three input channels are `channels.Channel` infinite buffers. Their
    implementation is not in the repository; the model takes the interface's contract:
    a send is taken at once until `Close`, after which the input channel is closed and a
    send on it is the runtime's "send on closed channel" panic. A buffer is a list,
    taken from the front.
  * A caller is a goroutine blocked in one `select` between sending its event and
    receiving from `shutdownCh` (`triggerPrefetch`, `reschedulePrefetch`,
    `CancelPrefetch`, and the first `select` of `WaitChannelForBlockPrefetch`). Either
    case may be taken whenever it is ready (Go picks among ready cases at random):
    `send` always, `skip` once `shutdownCh` is closed. Callers come and go in any
    order: `call` starts one with any event, at any time.
  * `inFlightFetches` holds one entry per `retriever.Request` made by `request`, that is
    per `Output.fetch` in the worker's outputs; `fetchesDone` counts the entries taken
    off, by `shutdownLoop` or by `run` once it shuts down. Taking one waits for the fetch.
  * `run`'s deferred function runs as one step with its return: `doneCh` and the input
    channels are closed together (`RunPhase.exited`).
  * The worker's answers (a fetch's success, cache space, backoffs) ride on the events,
    as in `Run`.

  `step` says what each move does and when it is enabled (`none` when it is not);
  `SysReachable` is every state a sequence of enabled moves reaches from
  `newBlockPrefetcher`. `SysInv` holds on all of them (`sysReachable_inv`): the worker's
  state is well formed, and `run` only leaves `serving` after `shutdownLoop` has seen
  `shutdownCh` closed and signalled `almostDoneCh`.
-/

namespace KbfsPrefetcher

open BlockPrefetcher

variable {A : Type}

/-! ## State and moves -/

/-- `prefetchRequestCh`, `prefetchCancelCh` and `prefetchRescheduleCh`. -/
inductive Input
  | request
  | cancel
  | reschedule
  deriving DecidableEq, Repr

/-- The input channel an event is sent on. -/
def Event.input : Event A → Input
  | .request .. => .request
  | .cancel _ => .cancel
  | .reschedule .. => .reschedule

/-- Where `run` is: its loop before `almostDoneCh` (`isShuttingDown` false), after it,
    or returned. -/
inductive RunPhase
  | serving
  | shuttingDown
  | exited
  deriving DecidableEq, Repr

/-- Where `shutdownLoop` is: its `select` loop, its drain of `inFlightFetches`, or done
    after the send on `almostDoneCh`. -/
inductive LoopPhase
  | watching
  | draining
  | signalled
  deriving DecidableEq, Repr

/-- An `inFlightFetches` entry comes with each fetch `request` makes. -/
def Output.isFetch : Output A → Bool
  | .fetch .. => true
  | _ => false

/-- The fetches the worker has made. -/
def fetchCount (out : List (Output A)) : Nat := (out.filter Output.isFetch).length

/-- The whole prefetcher. -/
structure System (A : Type) where
  pf : BlockPrefetcher A
  queues : Input → List (Event A)
  fetchesDone : Nat
  shutdownClosed : Bool
  /-- The value buffered in `almostDoneCh`. -/
  almostDone : Bool
  run : RunPhase
  loop : LoopPhase
  /-- The goroutines blocked in a `select` to send their event. -/
  callers : List (Event A)

namespace System

/-- `inFlightFetches.Len()`. -/
def inFlight (s : System A) : Nat := fetchCount s.pf.out - s.fetchesDone

/-- The three input buffers are empty. -/
def drained (s : System A) : Bool :=
  (s.queues .request).isEmpty && (s.queues .cancel).isEmpty && (s.queues .reschedule).isEmpty

/-- `newBlockPrefetcher` with a retriever: `run` and `shutdownLoop` started. -/
def init [Inhabited A] : System A :=
  ⟨.empty, fun _ => [], 0, false, false, .serving, .watching, []⟩

/-- A send taken into the buffer of the event's input channel. -/
def enqueue (s : System A) (e : Event A) : System A :=
  { s with queues := Function.update s.queues e.input (s.queues e.input ++ [e]) }

end System

/-- The `for id := range p.rescheduled { p.clearRescheduleState(id) }` loop: every armed
    timer stopped. -/
def BlockPrefetcher.stopAllTimers (s : BlockPrefetcher A) : BlockPrefetcher A :=
  { s with rescheduled := fun id => (s.rescheduled id).map fun rp => { rp with timer := none } }

/-- A move of one goroutine. -/
inductive Move (A : Type)
  /-- A goroutine enters its `select` to send `e`. -/
  | call (e : Event A)
  /-- Caller `i`'s `select` takes the send case. -/
  | send (i : Nat)
  /-- Caller `i`'s `select` takes the `shutdownCh` case and returns. -/
  | skip (i : Nat)
  /-- `Shutdown`: `shutdownOnce` closes `shutdownCh`. -/
  | shutdown
  /-- `run`'s `select` takes the head of an input buffer and handles it. -/
  | handle (ch : Input)
  /-- `shutdownLoop`, or `run` once shutting down, takes a fetch off `inFlightFetches`. -/
  | awaitFetch
  /-- `shutdownLoop`'s `select` takes `shutdownCh`. -/
  | stopWatching
  /-- `shutdownLoop`, drained, sends on `almostDoneCh`. -/
  | signalAlmostDone
  /-- `run`'s `select` takes `almostDoneCh`. -/
  | startShutdown
  /-- `run` finds everything drained and returns; its deferred function closes `doneCh`
      and the input channels. -/
  | exit

/-- The ways the process panics. -/
inductive Fault
  /-- A caller's send on an input channel after `Close`. -/
  | sendOnClosedChannel
  /-- `run` panics handling an event. -/
  | worker (a : Abort)
  deriving DecidableEq, Repr

variable [DecidableEq A] (act : ActionOps A) (store : Nat → Block)

/-- One move: `none` when it is not enabled, a panic, or the next state. -/
def step : Move A → System A → Option (Except Fault (System A))
  | .call e, s => some (.ok { s with callers := s.callers ++ [e] })
  | .send i, s => s.callers[i]?.map fun e =>
    if s.run = .exited then .error .sendOnClosedChannel
    else .ok ({ s with callers := s.callers.eraseIdx i }.enqueue e)
  | .skip i, s =>
    if s.shutdownClosed && i < s.callers.length then
      some (.ok { s with callers := s.callers.eraseIdx i })
    else none
  | .shutdown, s => some (.ok { s with shutdownClosed := true })
  | .handle ch, s =>
    if s.run = .exited then none
    else match s.queues ch with
      | [] => none
      | e :: es => some ((handleEvent act store e s.pf).mapError .worker |>.map fun pf =>
          { s with pf := pf, queues := Function.update s.queues ch es })
  | .awaitFetch, s =>
    if 0 < s.inFlight && (s.loop != .signalled || s.run == .shuttingDown) then
      some (.ok { s with fetchesDone := s.fetchesDone + 1 })
    else none
  | .stopWatching, s =>
    if s.loop = .watching && s.shutdownClosed then some (.ok { s with loop := .draining }) else none
  | .signalAlmostDone, s =>
    if s.loop = .draining && s.inFlight = 0 then
      some (.ok { s with loop := .signalled, almostDone := true })
    else none
  | .startShutdown, s =>
    if s.run = .serving && s.almostDone then
      some (.ok { s with run := .shuttingDown, almostDone := false, pf := s.pf.stopAllTimers })
    else none
  | .exit, s =>
    if s.run = .shuttingDown && s.inFlight = 0 && s.drained then some (.ok { s with run := .exited })
    else none

/-- A sequence of moves, stopping at the first panic or disabled move. -/
def runMoves : List (Move A) → System A → Option (Except Fault (System A))
  | [], s => some (.ok s)
  | m :: ms, s =>
    match step act store m s with
    | some (.ok s') => runMoves ms s'
    | r => r

/-- The states the goroutines reach from `newBlockPrefetcher`. -/
inductive SysReachable [Inhabited A] : System A → Prop
  | init : SysReachable .init
  | step {s s' : System A} (m : Move A) :
      SysReachable s → step act store m s = some (.ok s') → SysReachable s'

theorem SysReachable.runMoves [Inhabited A] {ms : List (Move A)} {s s' : System A}
    (h : SysReachable act store s) (hm : runMoves act store ms s = some (.ok s')) :
    SysReachable act store s' := by
  induction ms generalizing s with
  | nil => cases hm; exact h
  | cons m ms ih =>
    simp only [KbfsPrefetcher.runMoves] at hm
    split at hm
    · exact ih (.step m h ‹_›) hm
    · rename_i hr
      exact absurd hm (hr s')

/-! ## What a move can change -/

section Moves

variable {act store} {s s' : System A}

/-- A caller's send: before `run` returns, its event joins the end of its buffer. -/
theorem step_send {i : Nat} (h : step act store (.send i) s = some (.ok s')) :
    ∃ e, s.callers[i]? = some e ∧ s.run ≠ .exited ∧
      s' = { s with callers := s.callers.eraseIdx i }.enqueue e := by
  simp only [step, Option.map_eq_some'] at h
  obtain ⟨e, hi, he⟩ := h
  split at he
  · cases he
  · cases he; exact ⟨e, hi, ‹_›, rfl⟩

/-- `run` handles the head of a buffer with the worker's `handleEvent`. -/
theorem step_handle {ch : Input} (h : step act store (.handle ch) s = some (.ok s')) :
    s.run ≠ .exited ∧ ∃ e es, s.queues ch = e :: es ∧ handleEvent act store e s.pf = .ok s'.pf ∧
      s' = { s with pf := s'.pf, queues := Function.update s.queues ch es } := by
  simp only [step] at h
  split at h
  · cases h
  · rename_i hx
    split at h
    · cases h
    · rename_i e es hq
      cases he : handleEvent act store e s.pf with
      | error a => rw [he] at h; cases h
      | ok pf => rw [he] at h; cases h; exact ⟨hx, e, es, hq, he, rfl⟩

/-- The worker's state changes only by an event `run` handles before it returns, or by
    the timers stopped when it starts shutting down. -/
theorem step_pf {m : Move A} (h : step act store m s = some (.ok s')) :
    s'.pf = s.pf ∨ (s.run ≠ .exited ∧ ∃ e, handleEvent act store e s.pf = .ok s'.pf) ∨
      s'.pf = s.pf.stopAllTimers := by
  cases m with
  | send i => obtain ⟨e, -, -, rfl⟩ := step_send h; exact .inl rfl
  | handle ch => obtain ⟨hx, e, -, -, he, -⟩ := step_handle h; exact .inr (.inl ⟨hx, e, he⟩)
  | call e => cases h; exact .inl rfl
  | shutdown => cases h; exact .inl rfl
  | _ =>
    simp only [step] at h
    split at h <;> cases h
    all_goals first | exact .inl rfl | exact .inr (.inr rfl)

/-- Once `run` has returned, no move changes the worker's state or brings `run` back. -/
theorem step_exited {m : Move A} (h : step act store m s = some (.ok s')) (hx : s.run = .exited) :
    s'.run = .exited ∧ s'.pf = s.pf := by
  cases m with
  | send i => obtain ⟨e, -, hr, -⟩ := step_send h; exact absurd hx hr
  | handle ch => exact absurd hx (step_handle h).1
  | call e => cases h; exact ⟨hx, rfl⟩
  | shutdown => cases h; exact ⟨hx, rfl⟩
  | _ =>
    simp only [step] at h
    split at h <;> cases h
    all_goals first | exact ⟨hx, rfl⟩ | simp_all

end Moves

/-! ## Invariants of reachable states -/

/-- The invariant of the system: the worker's state is well formed, and the shutdown
    handshake runs in order, `shutdownCh` closed, then `almostDoneCh` signalled, then `run`
    shutting down. -/
structure SysInv (store : Nat → Block) (s : System A) : Prop where
  wf : Wf store s.pf
  loopClosed : s.loop ≠ .watching → s.shutdownClosed = true
  almostSignalled : s.almostDone = true → s.loop = .signalled
  runSignalled : s.run ≠ .serving → s.loop = .signalled

omit [DecidableEq A] in
theorem Within.stopAllTimers (s : BlockPrefetcher A) : s.stopAllTimers.Within s :=
  Within.of_heap_eq (fun _ _ h => h) rfl rfl

/-- Every move keeps the invariant. -/
theorem step_inv {m : Move A} {s s' : System A} (hi : SysInv store s)
    (h : step act store m s = some (.ok s')) : SysInv store s' := by
  have hwf : Wf store s'.pf := by
    rcases step_pf h with hp | ⟨-, e, he⟩ | hp
    · exact hp ▸ hi.wf
    · exact (handleEvent_holds act WalkBound.any e hi.wf).of_ok he
    · exact hp ▸ hi.wf.of_within (Within.stopAllTimers _)
  cases m with
  | send i => obtain ⟨e, -, -, rfl⟩ := step_send h; exact ⟨hwf, hi.2, hi.3, hi.4⟩
  | handle ch => obtain ⟨-, e, es, -, -, he⟩ := step_handle h; rw [he]; exact ⟨hwf, hi.2, hi.3, hi.4⟩
  | call e => cases h; exact ⟨hwf, hi.2, hi.3, hi.4⟩
  | shutdown => cases h; exact ⟨hwf, fun _ => rfl, hi.3, hi.4⟩
  | skip _ | awaitFetch =>
    simp only [step] at h
    split at h <;> cases h
    exact ⟨hwf, hi.2, hi.3, hi.4⟩
  | stopWatching =>
    simp only [step] at h
    split at h <;> cases h
    rename_i hc
    simp only [Bool.and_eq_true, decide_eq_true_eq] at hc
    refine ⟨hwf, fun _ => hc.2, fun ha => absurd (hi.3 ha) (by simp [hc.1]),
      fun hr => absurd (hi.4 hr) (by simp [hc.1])⟩
  | signalAlmostDone =>
    simp only [step] at h
    split at h <;> cases h
    exact ⟨hwf, fun _ => hi.2 (by simp_all), fun _ => rfl, fun _ => rfl⟩
  | startShutdown =>
    simp only [step] at h
    split at h <;> cases h
    rename_i hc
    simp only [Bool.and_eq_true, decide_eq_true_eq] at hc
    exact ⟨hwf, hi.2, fun h => (nomatch h), fun _ => hi.3 hc.2⟩
  | exit =>
    simp only [step] at h
    split at h <;> cases h
    rename_i hc
    simp only [Bool.and_eq_true, decide_eq_true_eq] at hc
    exact ⟨hwf, hi.2, hi.3, fun _ => hi.4 (by simp [hc.1.1])⟩

omit [DecidableEq A] in
theorem SysInv.init [Inhabited A] : SysInv store (System.init : System A) :=
  ⟨.empty, fun h => absurd rfl h, fun h => (nomatch h), fun h => absurd rfl h⟩

/-- One move that is enabled and does not panic. -/
def SysStep (s s' : System A) : Prop := ∃ m, step act store m s = some (.ok s')

/-- Once `run` has returned, it stays returned and the worker's state stays as it was,
    whatever the other goroutines do. -/
theorem exited_stays {s s' : System A} (h : Relation.ReflTransGen (SysStep act store) s s')
    (hx : s.run = .exited) : s'.run = .exited ∧ s'.pf = s.pf := by
  induction h with
  | refl => exact ⟨hx, rfl⟩
  | tail _ hst ih =>
    obtain ⟨m, hm⟩ := hst
    obtain ⟨hr, hp⟩ := step_exited hm ih.1
    exact ⟨hr, hp.trans ih.2⟩

/-- Every reachable state satisfies the invariant. -/
theorem sysReachable_inv [Inhabited A] {s : System A} (h : SysReachable act store s) :
    SysInv store s := by
  induction h with
  | init => exact .init store
  | step m _ hm ih => exact step_inv act store ih hm

end KbfsPrefetcher
