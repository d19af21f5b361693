import KbfsPrefetcher.Finished

/-
  Answering the fetches: the tree of a steady run drains.

  `request` asks the retriever for every child block it makes a record for, and the record waits
  (untriggered, count 1) until the block comes back through `ProcessBlockForPrefetch`. Here the
  block's answer is the event `fetchAnswer`: a request with the fetch's pointer, priority and
  action, a cache status of `NoPrefetch`, no reply channel, and a solo fetch in `run` that
  succeeds. `AnswerRun` is a run of such answers, in any order, each for a block whose record
  waits when it comes, with an action that prefetches the block and a disk cache that does not
  refuse it.

  Model: a weight `w` on blocks is `Ranked` when each block weighs more than one plus its
  children (the number of paths down from a block is one such weight, for a store in which no
  block has an infinite subtree). `pendingWork w s` sums the weights of the blocks whose records wait.

  Proved, over any block store with a ranked weight (so with no cycle, `Ranked.acyclic`):
  * `handleRequest_answer_work`. An answer for a waiting record takes the block's weight off the
    work and adds at most the weights of its children: the record stops waiting, by completing
    (a tail block) or by being triggered, and the only records that start to wait are new ones
    for children of the block (`handlePrefetch_made`, `pendingWork_grow`).
  * `steadyReachable_answerRun_le`. From every state a run of steady events reaches, every run of
    answers has at most `pendingWork w s` answers.
  * `steadyReachable_answers_drain`. From every such state, some run of answers, with an action
    that prefetches every block and no disk cache, empties the tree.

  What the results assume of the outside world is in `AnswerRun`: each answer arrives with the
  status `NoPrefetch` and a cache that takes it. A fetch that fails for good leaves its record
  waiting, and so can an answer whose cache reports the prefetch triggered (`isRedundant`).
-/

namespace KbfsPrefetcher

open BlockPrefetcher

variable {A : Type} {store : Nat → Block}

/-! ## The work left -/

/-- A weight on blocks larger than one plus the weights of the block's children. -/
def Ranked (store : Nat → Block) (w : Nat → Nat) : Prop :=
  ∀ id, 1 + ((store id).childPtrs.map fun c => w c.id).sum ≤ w id

/-- The blocks the tree still waits for, each stored record that is not triggered counting the
    weight of its block. -/
def pendingWork (w : Nat → Nat) (s : BlockPrefetcher A) : Nat :=
  ∑ l ∈ Finset.range s.next, if s.unfetchedAt l then w (s.heap l).req.ptr.id else 0

variable {w : Nat → Nat} {t u : BlockPrefetcher A}

theorem pendingWork_congr (hn : u.next = t.next) (hU : ∀ l, u.unfetchedAt l = t.unfetchedAt l)
    (hid : ∀ l, (u.heap l).req.ptr = (t.heap l).req.ptr) : pendingWork w u = pendingWork w t := by
  unfold pendingWork
  rw [hn]
  exact Finset.sum_congr rfl fun l _ => by rw [hU, hid]

theorem SameChains.pendingWork (h : SameChains t u) :
    KbfsPrefetcher.pendingWork w u = KbfsPrefetcher.pendingWork w t :=
  pendingWork_congr h.next h.unfetchedAt h.ptr

/-- Triggering a waiting record takes its block's weight off the work. -/
theorem pendingWork_trigger (ht : Wf store t) {R : Nat} (hR : t.unfetchedAt R = true)
    {g : Prefetch A → Prefetch A} (hp : (g (t.heap R)).req.ptr = (t.heap R).req.ptr)
    (htr : (g (t.heap R)).subtreeTriggered = true) :
    pendingWork w (t.modify R g) + w (t.heap R).req.ptr.id = pendingWork w t := by
  have hRs := isStored_of_unfetchedAt hR
  have hU : ∀ l, l ≠ R → (t.modify R g).unfetchedAt l = t.unfetchedAt l := fun l hl => by
    simp [BlockPrefetcher.unfetchedAt, isStored_modify hp, hl]
  have hUR : (t.modify R g).unfetchedAt R = false := by simp [BlockPrefetcher.unfetchedAt, htr]
  have := sum_range_ne (ht.lt_next hRs)
    (f := fun l => if (t.modify R g).unfetchedAt l then w ((t.modify R g).heap l).req.ptr.id else 0)
    (g := fun l => if t.unfetchedAt l then w (t.heap l).req.ptr.id else 0)
    fun l hl => by simp only [hU l hl, modify_heap, if_neg hl]
  simpa [pendingWork, hR, hUR] using this

/-- A step that keeps every old record that waits, with its pointer, and makes new waiting
    records only for blocks of `C` adds at most the weights of `C`. -/
theorem pendingWork_grow (hn : t.next ≤ u.next)
    (hold : ∀ l < t.next, u.unfetchedAt l = true →
      t.unfetchedAt l = true ∧ (u.heap l).req.ptr.id = (t.heap l).req.ptr.id)
    {C : Finset Nat} (hnew : ∀ l, t.next ≤ l → u.isStored l → (u.heap l).req.ptr.id ∈ C) :
    pendingWork w u ≤ pendingWork w t + ∑ i ∈ C, w i := by
  unfold pendingWork
  rw [← Finset.sum_range_add_sum_Ico _ hn]
  refine Nat.add_le_add (Finset.sum_le_sum fun l hl => ?_) ?_
  · have hl := Finset.mem_range.1 hl
    by_cases hU : u.unfetchedAt l
    · obtain ⟨hT, e⟩ := hold l hl hU
      simp [hU, hT, e]
    · simp [hU]
  · rw [← Finset.sum_filter]
    have hinj : ∀ l ∈ (Finset.Ico t.next u.next).filter (fun l => u.unfetchedAt l = true),
        ∀ l' ∈ (Finset.Ico t.next u.next).filter (fun l => u.unfetchedAt l = true),
        (u.heap l).req.ptr.id = (u.heap l').req.ptr.id → l = l' := fun l hl l' hl' e => by
      have hs := isStored_iff.1 (isStored_of_unfetchedAt (Finset.mem_filter.1 hl).2)
      rw [e, isStored_iff.1 (isStored_of_unfetchedAt (Finset.mem_filter.1 hl').2)] at hs
      exact Option.some.inj hs.symm
    rw [← Finset.sum_image (f := w) hinj]
    refine Finset.sum_le_sum_of_subset fun i hi => ?_
    obtain ⟨l, hl, rfl⟩ := Finset.mem_image.1 hi
    obtain ⟨hl, hU⟩ := Finset.mem_filter.1 hl
    exact hnew l (Finset.mem_Ico.1 hl).1 (isStored_of_unfetchedAt hU)

/-- The weights of the distinct IDs of a list of pointers are at most their sum over the list. -/
theorem sum_toFinset_le (L : List BlockPointer) :
    ∑ i ∈ (L.map BlockPointer.id).toFinset, w i ≤ (L.map fun c => w c.id).sum := by
  rw [show (L.map fun c => w c.id) = (L.map BlockPointer.id).map w by simp, Finset.sum_list_map_count]
  refine Finset.sum_le_sum fun i hi => ?_
  have := List.count_pos_iff.2 (List.mem_toFinset.1 hi)
  rw [smul_eq_mul]
  exact Nat.le_mul_of_pos_left _ this

/-! ## The request loop makes records for children only -/

theorem firstOfEachID_subset (seen : List Nat) :
    ∀ ptrs : List BlockPointer, firstOfEachID seen ptrs ⊆ ptrs
  | [] => List.nil_subset _
  | p :: ps => by
    unfold firstOfEachID
    split
    · exact (firstOfEachID_subset seen ps).trans (List.subset_cons_self _ _)
    · exact List.cons_subset_cons _ (firstOfEachID_subset _ ps)

theorem Grows.unfetchedAt (hg : Grows t u) {l : Nat} (hl : l < t.next) :
    u.unfetchedAt l = t.unfetchedAt l := by
  unfold BlockPrefetcher.unfetchedAt
  rw [hg.ext.triggered l hl, Bool.eq_iff_iff.2 (hg.isStored_iff hl)]

variable [DecidableEq A] (act : ActionOps A)

/-- Handling a file or directory block from a stored record: the loop grows the state, and every
    record it makes is for a child of the block. -/
theorem handlePrefetch_made {r : Nat} (hu : Unshared t)
    (hr : t.prefetches (t.heap r).req.ptr.id = some r) {b : Block} (hb : b ≠ .common) (isNew : Bool) (action : A) :
    (handlePrefetch act r isNew action b t).Holds (fun _ => True) fun x =>
      Grows t x.2 ∧ ∀ l, t.next ≤ l → x.2.isStored l →
        (x.2.heap l).req.ptr.id ∈ (b.childPtrs.map BlockPointer.id).toFinset := by
  rw [handlePrefetch_eq act r isNew action hb t]
  obtain ⟨u, h, -, -, hk⟩ := requestEach_children act
    (calculatePriority (t.heap r).req.priority (act.childAction action b)) isNew
    (act.childAction action b) b.requestOrder 0 [] t hu (by rw [hr]; rfl)
  rw [h]
  refine ⟨(requestEach_grows act _ _ _ t).of_ok h, fun l hl hs => ?_⟩
  rw [List.mem_toFinset]
  by_contra hc
  have hs' := isStored_iff.1 hs
  rw [(hk _ fun hm => hc ?_).1] at hs'
  · exact absurd (hu.allocated _ _ hs') (not_lt.2 hl)
  · obtain ⟨q, hq, e⟩ := List.mem_map.1 hm
    exact List.mem_map.2 ⟨q, b.requestOrder_perm.subset (firstOfEachID_subset _ _ hq), e⟩

/-! ## Answering a waiting fetch -/

/-- The retriever's answer to a fetch the prefetcher asked for: `ProcessBlockForPrefetch` with
    the fetch's pointer, priority and action, for a block whose cache status is `NoPrefetch`; the
    solo fetch `run` makes for it succeeds. -/
def fetchAnswer (ptr : BlockPointer) (priority : Int) (action : A) (space : DiskCacheSpace) :
    Event A :=
  .request ⟨ptr, priority, .noPrefetch, action, false⟩ true space fun _ => true

variable (hst : StoreAcyclic store)

omit [DecidableEq A] in
include hst in
/-- The answer for a tail block completes its waiting record: the block's weight comes off. -/
theorem finishRequest_answer_work (h : SteadyCounts t) (ht : Wf store t) {req : PrefetchRequest A}
    {R : Nat} (hw : t.prefetches req.ptr.id = some R) (htail : (store req.ptr.id).isTail = true)
    {solo : Nat → Bool} : (finishRequest req solo (some R) t).Holds (fun _ => True) fun u =>
      pendingWork w u + w req.ptr.id = pendingWork w t := by
  obtain ⟨hR, h1, u, hu, hsh⟩ := finishRequest_shifted hst h ht hw htail
  rw [hu]
  show pendingWork w u + _ = _
  rw [← ht.keyed _ _ hw, pendingWork_congr (t := triggeredAt t R) (by rw [hsh.next, modify_next])
    (unfetchedAt_completed hst h ht hR h1 hsh) fun l => by
      by_cases hl : l = R <;> simp [hsh.req, hl]]
  exact pendingWork_trigger ht hR rfl rfl

include hst in
/-- `updateRecord` for a waiting record: the decrement walk leaves the work as it is, and the
    trigger takes the block's weight off. -/
theorem updateRecord_answer_work (h : SteadyCounts t) (ht : Wf store t) {req : PrefetchRequest A}
    {R : Nat} (hw : t.prefetches req.ptr.id = some R) (hun : (t.heap R).subtreeTriggered = false) :
    (updateRecord act req (some R) t).Holds (fun _ => True) fun x =>
      pendingWork w x.2 + w req.ptr.id = pendingWork w t := by
  obtain ⟨hU, u, hu, hsh, hwu⟩ := h.decrementWalk hst ht hw hun
  have hsc := SameChains.of_shifted hsh
  simp only [updateRecord, hun, Bool.false_eq_true, if_false]
  refine Except.Holds.ite (fun h0 => absurd h0 (h.pos R (ht.isStored hw)).ne') fun _ => ?_
  simp only [Except.Holds.pure_bind]
  rw [hu]
  show pendingWork w (u.modify R _) + _ = _
  rw [← ht.keyed _ _ hw, ← hsc.ptr R, ← hsc.pendingWork]
  exact pendingWork_trigger hwu (by rw [hsc.unfetchedAt]; exact hU) rfl rfl

include hst in
/-- The end of the request case from a record owing nothing, for a block that is no tail: the
    records that start to wait are new ones for children of the block. -/
theorem prefetchChildren_answer_work {r : Nat} {P : BlockPointer} {req : PrefetchRequest A}
    (ho : Owing store t r P 0) (hP : (t.heap r).req.ptr = P) (hreq : req.ptr.id = P.id)
    (ht : (store req.ptr.id).isTail = false) {solo : Nat → Bool} :
    (prefetchChildren act req solo false (store req.ptr.id) r t).Holds (fun _ => True) fun u =>
      pendingWork w u ≤
        pendingWork w t + ∑ i ∈ ((store req.ptr.id).childPtrs.map BlockPointer.id).toFinset, w i := by
  rw [hreq] at ht ⊢
  obtain ⟨acc, u, h, ho', -⟩ := handlePrefetch_owing act hst ho hP
    (show false = true → Fresh t P [] from nofun) rfl ht req.action
  have hne : store P.id ≠ .common := fun e => by rw [e] at ht; cases ht
  obtain ⟨hg, hm⟩ := (handlePrefetch_made act ho.wf.unshared (by rw [hP]; exact ho.stored) hne
    false req.action).of_ok h
  have hu : pendingWork w u ≤
      pendingWork w t + ∑ i ∈ ((store P.id).childPtrs.map BlockPointer.id).toFinset, w i :=
    pendingWork_grow hg.ext.next (fun l hl hU => ⟨hg.unfetchedAt hl ▸ hU, by rw [hg.ext.ptr l hl]⟩) hm
  have hok : ∀ f : Option (Int × Bool) × BlockPrefetcher A → Except Abort (BlockPrefetcher A),
      (Except.ok (some (acc, false), u) >>= f) = f (some (acc, false), u) := fun _ => rfl
  simp only [prefetchChildren, h, hok, Bool.false_eq_true, if_false]
  by_cases hz : acc = 0
  · rw [if_pos hz]
    exact hu
  · rw [if_neg hz]
    obtain ⟨v, hv, hsh, -⟩ :=
      ho'.addWalk_shifted hst (lt_of_le_of_ne ho'.acc_nonneg (Ne.symm hz)) (hreq ▸ ho'.stored)
    rw [hv]
    exact (SameChains.of_shifted hsh).pendingWork.le.trans hu

include hst in
/-- Answering the fetch of a block whose record waits, with a request of status `NoPrefetch` and
    no reply channel, an action that prefetches the block and a disk cache that does not refuse
    it: the work falls by the block's weight and grows by at most the weights of its children. -/
theorem handleRequest_answer_work {s : BlockPrefetcher A} (h : SteadyCounts s) (hs : Wf store s)
    {req : PrefetchRequest A} (hstat : req.prefetchStatus = .noPrefetch) (hsend : req.sendCh = false)
    {R : Nat} (hR : s.prefetches req.ptr.id = some R) (hun : (s.heap R).subtreeTriggered = false)
    {space : DiskCacheSpace} (hpre : act.prefetch req.action (store req.ptr.id) = true)
    (hroom : space ≠ .answered false) {solo : Nat → Bool} :
    (handleRequest act store req true space solo s).Holds (fun _ => True) fun u =>
      pendingWork w u + w req.ptr.id ≤
        pendingWork w s + ((store req.ptr.id).childPtrs.map fun c => w c.id).sum := by
  have h₀ := h.sameChains (.clearRescheduleState s req.ptr.id) fun _ => by simp
  have hs₀ := hs.of_within (Within.clearRescheduleState s req.ptr.id)
  have hw : (s.clearRescheduleState req.ptr.id).prefetches req.ptr.id = some R := by simp [hR]
  have hun₀ : ((s.clearRescheduleState req.ptr.id).heap R).subtreeTriggered = false := by
    simpa using hun
  have hsum := sum_toFinset_le (w := w) (store req.ptr.id).childPtrs
  rw [← (SameChains.clearRescheduleState s req.ptr.id).pendingWork]
  simp only [handleRequest, pure_bind, bind_pure, hR]
  refine Except.Holds.ite (fun h => absurd h (by simp [hsend])) fun _ => ?_
  refine Except.Holds.ite nofun fun _ => ?_
  refine Except.Holds.ite (fun htail => (finishRequest_answer_work (w := w) hst h₀ hs₀ hw
    (by simpa [hstat] using htail)).imp fun u hu => by omega) fun htail => ?_
  refine Except.Holds.ite (fun hp => absurd hpre (by simpa using hp)) fun _ => ?_
  refine Except.Holds.ite (fun hred => absurd hred (by simp [isRedundant, hstat])) fun _ => ?_
  have hstop : stopIfNeeded act req space (s.clearRescheduleState req.ptr.id) =
      (false, s.clearRescheduleState req.ptr.id) := by
    unfold stopIfNeeded
    split
    · exact absurd rfl hroom
    · rfl
  rw [hstop]
  refine Except.Holds.ite nofun fun _ => ?_
  refine Except.Holds.bind (((updateRecord_steady act hst h₀ hs₀ hw).and
    (updateRecord_answer_work (w := w) act hst h₀ hs₀ hw hun₀)).imp_error fun _ => False.elim) fun x hx => ?_
  obtain ⟨_ | r, t⟩ := x
  · have := hx.2
    dsimp only at this
    simp only [Except.Holds.pure_iff]
    omega
  · obtain ⟨⟨ho, hk, -⟩, hwk⟩ := hx
    exact (prefetchChildren_answer_work (w := w) act hst ho rfl hk.symm (by simpa [hstat] using htail)).imp
      fun u hu => by dsimp only at hwk; omega

/-! ## Runs of answers -/

/-- A ranked weight falls from a block to each of its children, so the store has no cycle. -/
theorem Ranked.acyclic (hw : Ranked store w) : StoreAcyclic store := by
  have hlt : ∀ p c, ChildOf store p c → w c < w p := fun p c ⟨q, hq, e⟩ => by
    have : w q.id ≤ _ := List.le_sum_of_mem (List.mem_map_of_mem (fun c => w c.id) hq)
    have := hw p
    rw [← e]
    omega
  intro id hc
  suffices ∀ a b, Relation.TransGen (ChildOf store) a b → w b < w a from lt_irrefl _ (this _ _ hc)
  intro a b hab
  induction hab with
  | single h' => exact hlt _ _ h'
  | tail _ h' ih => exact (hlt _ _ h').trans ih

/-- The runs in which the retriever answers, one at a time, fetches of blocks whose records wait,
    each with an action that prefetches the block and a disk cache that does not refuse it. The
    index counts the answers. -/
inductive AnswerRun (act : ActionOps A) (store : Nat → Block) :
    BlockPrefetcher A → Nat → BlockPrefetcher A → Prop
  | nil (s : BlockPrefetcher A) : AnswerRun act store s 0 s
  | answer {s s₁ s₂ : BlockPrefetcher A} {n : Nat} (ptr : BlockPointer) (R : Nat) (priority : Int)
      (action : A) (space : DiskCacheSpace) :
      s.prefetches ptr.id = some R → (s.heap R).subtreeTriggered = false →
      act.prefetch action (store ptr.id) = true → space ≠ .answered false →
      handleEvent act store (fetchAnswer ptr priority action space) s = .ok s₁ →
      AnswerRun act store s₁ n s₂ → AnswerRun act store s (n + 1) s₂

omit [DecidableEq A] in
theorem fetchAnswer_isSteady {act : ActionOps A} {ptr : BlockPointer} {priority : Int}
    {action : A} {space : DiskCacheSpace} (hpre : act.prefetch action (store ptr.id) = true) :
    (fetchAnswer ptr priority action space).isSteady act store = true := by
  simp [fetchAnswer, Event.isSteady, hpre]

section Runs

variable [Inhabited A] {act : ActionOps A} (hw : Ranked store w)

include hw in
/-- From a steady-reachable state, the answer to the fetch of a block whose record waits ends
    normally, with less work left. -/
theorem SteadyReachable.answer {s : BlockPrefetcher A} (h : SteadyReachable act store s)
    {ptr : BlockPointer} {R : Nat} (hR : s.prefetches ptr.id = some R)
    (hun : (s.heap R).subtreeTriggered = false) (priority : Int) {action : A}
    {space : DiskCacheSpace} (hpre : act.prefetch action (store ptr.id) = true)
    (hroom : space ≠ .answered false) :
    (handleEvent act store (fetchAnswer ptr priority action space) s).Holds (fun _ => False)
      fun s' => pendingWork w s' < pendingWork w s := by
  have hst := hw.acyclic
  have hc := h.steadyCounts hst
  have hs := reachable_wf act h.reachable
  show (handleRequest act store ⟨ptr, priority, .noPrefetch, action, false⟩ true space
    (fun _ => true) s).Holds _ _
  refine ((handleRequest_steady act hst hc hs (.inr ⟨by simp, hpre⟩)).and
    (handleRequest_answer_work (w := w) act hst hc hs rfl rfl hR hun hpre hroom)).imp
      fun s' hs' => ?_
  have := hw ptr.id
  have := hs'.2
  dsimp only at this
  omega

include hw in
/-- Over a store with a ranked weight, from every state a run of steady events reaches, every run
    of answers to waiting fetches, in any order, has at most `pendingWork w s` answers. -/
theorem steadyReachable_answerRun_le {s s' : BlockPrefetcher A} {n : Nat}
    (h : SteadyReachable act store s) (hr : AnswerRun act store s n s') : n ≤ pendingWork w s := by
  induction hr with
  | nil => exact Nat.zero_le _
  | answer ptr R priority action space hR hun hpre hroom hstep _ ih =>
    have hlt := (h.answer hw hR hun priority hpre hroom).of_ok hstep
    have := ih (.step _ h (fetchAnswer_isSteady hpre) hstep)
    omega

end Runs

/-- A ranked weight for `diamondStore`: the paths below each block. -/
def diamondWeight : Nat → Nat := fun id =>
  if id = 1 then 5 else if id = 2 ∨ id = 3 then 2 else 1

theorem diamondWeight_ranked : Ranked diamondStore diamondWeight := fun id => by
  by_cases h1 : id = 1 <;> by_cases h2 : id = 2 <;> by_cases h3 : id = 3 <;>
    simp [diamondStore, diamondWeight, h1, h2, h3, Block.childPtrs]

/-- After `diamondRun`, block 4's fetch is answered: a run of one answer, within the work left. -/
theorem diamondRun_answerRun_le :
    ∃ s s', SteadyReachable ActionOps.unit diamondStore s ∧ AnswerRun ActionOps.unit diamondStore s 1 s' ∧
      1 ≤ pendingWork diamondWeight s := by
  have hr := SteadyReachable.runEvents .init diamondRun_steady
    (show runEvents ActionOps.unit diamondStore diamondRun .empty = _ from rfl)
  exact ⟨_, _, hr, .answer ⟨4, 0⟩ 3 0 () .noDiskCache rfl rfl rfl nofun rfl (.nil _),
    steadyReachable_answerRun_le diamondWeight_ranked hr
      (.answer ⟨4, 0⟩ 3 0 () .noDiskCache rfl rfl rfl nofun rfl (.nil _))⟩

end KbfsPrefetcher
