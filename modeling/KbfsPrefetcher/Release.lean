import KbfsPrefetcher.System

/-
  Wait channels and the tree: a record's `waitCh` is closed exactly when the record has left
  `prefetches`.

  `WaitChannelForBlockPrefetch` hands its caller the `waitCh` of the block's record, and the
  caller waits until `prefetch.Close` closes it. Every path that takes a record out of
  `prefetches` closes it in the same step (`completePrefetch`, `cancelPrefetch`, the top-block
  case of `rescheduleTopBlock`), and the only records ever stored are the one a request has
  just allocated or the one the entry already names. `Released` says the first half of this:
  every allocated record that its ID's entry does not name is closed; `Wf.isOpen` is the other
  half. Every event `run` handles keeps it (`handleEvent_released`), and so does stopping the
  timers, so in every state the goroutines reach, over any block store and any interleaving
  (`sysReachable_open_iff`), a record's channel is open exactly when an ID of `prefetches`
  names the record: no caller is left waiting on a record the prefetcher has dropped, and no
  record in the tree has a closed channel.

  A walk keeps `Released` when it starts at an allocated record (`LoopRel.release`): each
  function it applies keeps it at an allocated record (`completePrefetch_releases` ..
  `rescheduleTopBlock_releases`), since a record there that is still open is the one its ID's
  entry names, so deleting that entry takes out only the record that is then closed.
  Enumerating children stores only what it allocates (`handlePrefetch_released`).
-/

namespace KbfsPrefetcher

open BlockPrefetcher

variable {A : Type} {store : Nat → Block}

/-- Every allocated record that its ID's entry does not name has been closed. -/
def Released (s : BlockPrefetcher A) : Prop :=
  ∀ loc < s.next, s.prefetches (s.heap loc).req.ptr.id ≠ some loc → (s.heap loc).closed = true

namespace Released

variable {s : BlockPrefetcher A}

theorem empty [Inhabited A] : Released (BlockPrefetcher.empty : BlockPrefetcher A) :=
  fun _ h => absurd h (Nat.not_lt_zero _)

/-- An allocated record that is still open is the one its ID's entry names. -/
theorem stored (h : Released s) {loc : Nat} (hl : loc < s.next) (hc : (s.heap loc).closed = false) :
    s.prefetches (s.heap loc).req.ptr.id = some loc :=
  Classical.byContradiction fun hn => by simp [h loc hl hn] at hc

theorem emit (h : Released s) (o : Output A) : Released (s.emit o) := h

theorem of_eq (h : Released s) {u : BlockPrefetcher A} (hp : u.prefetches = s.prefetches)
    (hh : u.heap = s.heap) (hn : u.next = s.next) : Released u := by
  intro l hl
  rw [hp, hh]
  exact h l (hn ▸ hl)

/-- A write that keeps the record's ID and closed flag. -/
theorem modify (h : Released s) {loc : Nat} {g : Prefetch A → Prefetch A}
    (hp : (g (s.heap loc)).req.ptr.id = (s.heap loc).req.ptr.id)
    (hc : (g (s.heap loc)).closed = (s.heap loc).closed) : Released (s.modify loc g) := by
  intro l hl hn
  by_cases e : l = loc
  · subst e
    simp only [modify_heap, if_true, modify_prefetches, hp, hc] at hn ⊢
    exact h l hl hn
  · simp only [modify_heap, e, if_false, modify_prefetches] at hn ⊢
    exact h l hl hn

/-- Allocating a record and storing it under its ID, whose entry was empty. -/
theorem allocSet (h : Released s) {pp : Prefetch A} {id : Nat} (hid : pp.req.ptr.id = id)
    (hn : s.prefetches id = none) : Released ((s.alloc pp).2.setPrefetch id s.next) := by
  intro l hl hns
  simp only [setPrefetch_next, alloc_next] at hl
  simp only [setPrefetch_prefetches, setPrefetch_heap, alloc_prefetches, alloc_heap] at hns ⊢
  by_cases e : l = s.next
  · simp [e, hid] at hns
  · have hl' : l < s.next := by omega
    simp only [e, if_false] at hns ⊢
    refine h l hl' fun hs => hns ?_
    split_ifs with e'
    · rw [e'] at hs; rw [hn] at hs; cases hs
    · exact hs

/-- Deleting the entry of an allocated record's ID and then closing the record. -/
theorem deleteClose (h : Released s) {loc id : Nat} (hl : loc < s.next)
    (hid : (s.heap loc).req.ptr.id = id) {u : BlockPrefetcher A}
    (hp : ∀ i, u.prefetches i = if i = id then none else s.prefetches i) (hh : u.heap = s.heap)
    (hn : u.next = s.next) : (u.close loc).Holds (fun _ => True) Released := by
  unfold BlockPrefetcher.close
  split
  · trivial
  · rename_i hc
    have hloc := h.stored hl (by simpa [hh] using hc)
    intro l hl' hns
    by_cases e : l = loc
    · simp [e]
    · simp only [modify_heap, e, if_false, modify_prefetches, hh, hp] at hns ⊢
      refine h l (hn ▸ hl') fun hs => hns ?_
      split_ifs with e'
      · rw [e', ← hid, hloc] at hs
        exact absurd (Option.some.inj hs).symm e
      · exact hs

end Released

/-! ## Walks -/

section Walks

variable {κ : Type} {E : Abort → Prop}

/-- What a function a walk applies must do: at an allocated record of the block `key k` of
    a well-formed state, keep `Released`. -/
def WalkFn.Releases (store : Nat → Block) (key : κ → Nat) (f : WalkFn A κ) : Prop :=
  ∀ k loc t, Wf store t → loc < t.next → (t.heap loc).req.ptr.id = key k → Released t →
    (f k loc t).Holds (fun _ => True) Released

/-- What a walk from the record at `loc` of `s` may end in: a well-formed state within `s`,
    released if `s` was and `loc` is allocated. -/
def ReleaseRel (store : Nat → Block) (s : BlockPrefetcher A) (loc : Nat) (t : BlockPrefetcher A) :
    Prop :=
  (Wf store t ∧ t.Within s) ∧ (Released s → loc < s.next → Released t)

/-- Every walk from an allocated record keeps `Released`: it visits only records that an
    entry names, which are allocated. -/
theorem LoopRel.release : LoopRel store (@ReleaseRel A store) (ReleaseRel store) where
  wf h := h.1
  refl _ hs := ⟨⟨hs, .refl _⟩, fun h _ => h⟩
  prune _ h hg hgo := ⟨LoopRel.within.prune _ h.1 hg hgo, fun hr hl => (h.2 hr hl).modify rfl rfl⟩
  parent hs h he hp h' := ⟨LoopRel.within.parent hs h.1 he hp h'.1, fun hr hl =>
    h'.2 (h.2 hr hl) (hp.elim fun _ hi => h.1.1.allocated _ _ hi)⟩

theorem WalkFn.Keeps.appliesHolds_release {key : κ → Nat} {f : WalkFn A κ}
    (hf : f.Keeps store E key) (hr : f.Releases store key) : AppliesHolds E (ReleaseRel store) key f := by
  intro s k loc t ht hk
  have hw := hf.appliesHolds s k loc t ht.1 hk
  by_cases hs : Released s ∧ loc < s.next
  · exact (hw.and (hr k loc t ht.1.1 (ht.1.2.next ▸ hs.2) hk (ht.2 hs.1 hs.2))).imp
      fun _ h => ⟨h.1, fun _ _ => h.2⟩
  · exact hw.imp fun _ h => ⟨h, fun h1 h2 => absurd ⟨h1, h2⟩ hs⟩

/-- The walk through every bucket, as `run` starts it at an allocated record. -/
theorem Released.parents {f : WalkFn A Nat} (hf : f.Keeps store (· ≠ .stackExhausted) id)
    (hr : f.Releases store id) {blockID loc : Nat} {s : BlockPrefetcher A} (hs : Wf store s)
    (hk : (s.heap loc).req.ptr.id = blockID) (h : Released s) (hl : loc < s.next) :
    (applyToParentsRecursive f s.walkFuel blockID loc s).Holds (fun _ => True) Released :=
  (applyToParentsRecursive_holds LoopRel.release FuelSpec.any
    ((hf.mono fun _ _ => trivial).appliesHolds_release hr) _ _ _ _ hs hk trivial).imp
    fun _ ht => ht.2 h hl

/-- The walk along one ref-nonce's bucket, as `run` starts it at an allocated record. -/
theorem Released.ptrParents {f : WalkFn A BlockPointer}
    (hf : f.Keeps store (· ≠ .stackExhausted) BlockPointer.id) (hr : f.Releases store BlockPointer.id)
    {ptr : BlockPointer} {loc : Nat} {s : BlockPrefetcher A} (hs : Wf store s)
    (hk : (s.heap loc).req.ptr.id = ptr.id) (h : Released s) (hl : loc < s.next) :
    (applyToPtrParentsRecursive f s.walkFuel ptr loc s).Holds (fun _ => True) Released :=
  (applyToPtrParentsRecursive_holds LoopRel.release FuelSpec.any
    ((hf.mono fun _ _ => trivial).appliesHolds_release hr) _ _ _ _ hs hk trivial).imp
    fun _ ht => ht.2 h hl

end Walks

/-! ## The functions the walks apply -/

theorem completePrefetch_releases (n : Int) (solo : Nat → Bool) :
    (completePrefetch n solo : WalkFn A Nat).Releases store id := by
  intro k loc t _ hl hk h
  have hm : Released (t.modify loc fun pp =>
      { pp with subtreeBlockCount := pp.subtreeBlockCount - n }) := h.modify rfl rfl
  simp only [completePrefetch]
  split
  · trivial
  · simp only [Except.Holds.pure_bind]
    split
    · exact hm
    · exact hm.deleteClose hl (by simpa using hk) (fun i => by simp) (by simp) (by simp)

theorem decrementPrefetch_releases : (decrementPrefetch : WalkFn A Nat).Releases store id := by
  intro k loc t _ _ _ h
  simp only [decrementPrefetch]
  split
  · trivial
  · exact h.modify rfl rfl

theorem addSubtreeBlocks_releases (n : Int) : (addSubtreeBlocks n : WalkFn A Nat).Releases store id :=
  fun _ _ _ _ _ _ h => h.modify rfl rfl

theorem cancelPrefetch_releases : (cancelPrefetch : WalkFn A BlockPointer).Releases store BlockPointer.id := by
  intro ptr loc t _ hl hk h
  have hm : Released (t.modify loc fun pp =>
      { pp with parents := dropBucket ptr.refNonce pp.parents }) := h.modify rfl rfl
  simp only [cancelPrefetch]
  split
  · exact hm
  · simp only [Except.Holds.pure_bind]
    exact Except.Holds.bind (hm.deleteClose hl (by simpa using hk) (fun i => by simp) rfl rfl) fun _ h' =>
      h'.of_eq (by simp) (by simp) (by simp)

/-- `rescheduleTopBlock` cancels through every bucket of a record with parents, with the
    loop invariant of a walk at the record, or moves a top block out of `prefetches`. -/
theorem rescheduleTopBlock_releases (stops : Nat → Bool) :
    (rescheduleTopBlock stops : WalkFn A Nat).Releases store id := by
  intro k loc t hs hl hk h
  simp only [rescheduleTopBlock]
  split
  · have step : AppliesHolds (fun _ => True) (ReleaseRel store) BlockPointer.id
        (cancelPrefetch : WalkFn A BlockPointer) :=
      (cancelPrefetch_keeps.mono fun _ _ => trivial).appliesHolds_release cancelPrefetch_releases
    exact Except.Holds.bind (Except.Holds.foldlM (fun t' b _ (h' : ReleaseRel store t loc t') =>
      step t ⟨k, b.1⟩ loc t' h' (by rw [h'.1.2.ptr]; exact hk))
      (LoopRel.release.refl loc hs)) fun _ h' => h'.2 h hl
  · simp only [Except.Holds.pure_bind]
    refine Except.Holds.bind (h.deleteClose hl hk (fun i => by simp) rfl rfl) fun t' h' => ?_
    have hr : ∀ rp, Released (t'.setRescheduled k rp) := fun rp => h'.of_eq rfl rfl rfl
    split
    · exact hr _
    · simp only [Except.Holds.pure_bind]
      split <;> exact hr _

/-! ## Enumerating children -/

section Enumeration

theorem childRecord_released (priority : Int) (ptr : BlockPointer) (action : A)
    {s : BlockPrefetcher A} (h : Released s) : Released (childRecord priority ptr action s).2.2 := by
  unfold childRecord
  split
  · exact h
  · exact h.allocSet rfl ‹_›

theorem recordParent_released {ptr parentPtr : BlockPointer} {isParentNew : Bool} {loc : Nat}
    {s : BlockPrefetcher A} (h : Released s) :
    (recordParent ptr parentPtr isParentNew loc s).Holds (fun _ => True) fun r => Released r.2 := by
  simp only [recordParent]
  split
  · trivial
  · simp only [Except.Holds.pure_bind]
    split
    · exact h.modify rfl rfl
    · exact h

variable [DecidableEq A] (act : ActionOps A)

theorem sendChildRequest_released (priority : Int) (ptr : BlockPointer) (action : A) (w : Bool)
    (loc : Nat) {s : BlockPrefetcher A} (h : Released s) :
    Released (sendChildRequest act priority ptr action w loc s) := by
  dsimp only [sendChildRequest]
  split
  · exact Released.emit (h.modify rfl rfl) _
  · exact h

theorem request_released {priority : Int} {ptr parentPtr : BlockPointer} {isParentNew : Bool}
    {action : A} {idsSeen : List Nat} {s : BlockPrefetcher A} (h : Released s) :
    (request act priority ptr parentPtr isParentNew action idsSeen s).Holds (fun _ => True)
      fun r => Released r.2.2 := by
  simp only [request]
  split
  · exact h
  · simp only [Except.Holds.pure_bind]
    have h1 := childRecord_released priority ptr action h
    generalize childRecord priority ptr action s = r at h1 ⊢
    obtain ⟨w, loc, s1⟩ := r
    exact Except.Holds.bind
      (recordParent_released (sendChildRequest_released act priority ptr action w loc h1))
      fun _ hr => hr

theorem requestEach_released {priority : Int} {parentPtr : BlockPointer} {isParentNew : Bool}
    {action : A} :
    ∀ (ptrs : List BlockPointer) (numBlocks : Int) (idsSeen : List Nat) (s : BlockPrefetcher A),
      Released s → (requestEach act priority parentPtr isParentNew action ptrs numBlocks idsSeen s).Holds
        (fun _ => True) fun r => Released r.2
  | [], _, _, _, h => h
  | _ :: ps, _, _, _, h =>
    Except.Holds.bind (request_released act h) fun ⟨_, _, _⟩ hr => requestEach_released ps _ _ _ hr

theorem prefetchIndirectBlock_released {parentPtr : BlockPointer} {iptrs : List BlockPointer}
    {isNew : Bool} {action : A} {basePriority : Int} {s : BlockPrefetcher A} (h : Released s) :
    (prefetchIndirectBlock act parentPtr iptrs isNew action basePriority s).Holds (fun _ => True)
      fun r => Released r.2.2 :=
  Except.Holds.bind (requestEach_released act _ _ _ s h) fun _ h => h

theorem prefetchDirectDirBlock_released {parentPtr : BlockPointer} {children : List DirEntry}
    {isNew : Bool} {action : A} {basePriority : Int} {s : BlockPrefetcher A} (h : Released s) :
    (prefetchDirectDirBlock act parentPtr children isNew action basePriority s).Holds (fun _ => True)
      fun r => Released r.2.2 :=
  Except.Holds.bind (requestEach_released act _ _ _ s h) fun _ h => h

/-- Enumerating children stores only the records it allocates. -/
theorem handlePrefetch_released {loc : Nat} {isNew : Bool} {action : A} {b : Block}
    {s : BlockPrefetcher A} (h : Released s) :
    (handlePrefetch act loc isNew action b s).Holds (fun _ => True) fun r => Released r.2 := by
  unfold handlePrefetch
  cases b with
  | file isInd iptrs =>
    cases isInd
    · exact h
    · exact Except.Holds.bind (prefetchIndirectBlock_released act h) fun _ h => h
  | dir isInd iptrs children =>
    cases isInd
    · exact Except.Holds.bind (prefetchDirectDirBlock_released act h) fun _ h => h
    · exact Except.Holds.bind (prefetchIndirectBlock_released act h) fun _ h => h
  | common => exact h

end Enumeration

/-! ## The handlers -/

theorem handleCancel_released {ptr : BlockPointer} {s : BlockPrefetcher A} (hs : Wf store s)
    (h : Released s) : (handleCancel ptr s).Holds (fun _ => True) Released := by
  unfold handleCancel
  split
  · exact h
  · rename_i loc hloc
    exact Released.ptrParents cancelPrefetch_keeps cancelPrefetch_releases hs (hs.keyed _ _ hloc) h
      (hs.allocated _ _ hloc)

theorem handleReschedule_released {req : PrefetchRequest A} {stops : Nat → Bool}
    {s : BlockPrefetcher A} (hs : Wf store s) (h : Released s) :
    (handleReschedule req stops s).Holds (fun _ => True) Released := by
  unfold handleReschedule
  cases hn : s.prefetches req.ptr.id with
  | none =>
    exact Released.parents (rescheduleTopBlock_keeps stops) (rescheduleTopBlock_releases stops)
      ((hs.alloc rfl).setPrefetch (by simp) (by simp [newPrefetch]) (by simp [newPrefetch]))
      (by simp [newPrefetch]) (h.allocSet rfl hn) (by simp)
  | some loc =>
    have hk := (hs.keyed _ _ hn).symm
    exact Released.parents (rescheduleTopBlock_keeps stops) (rescheduleTopBlock_releases stops)
      (hs.modify hk rfl rfl) (by simp) (h.modify hk rfl) (hs.allocated _ _ hn)

theorem finishRequest_released {req : PrefetchRequest A} {solo : Nat → Bool} {waiting : Option Nat}
    {s : BlockPrefetcher A} (hs : Wf store s) (h : Released s) (hw : s.prefetches req.ptr.id = waiting) :
    (finishRequest req solo waiting s).Holds (fun _ => True) Released := by
  cases waiting with
  | none =>
    show Except.Holds _ _ (pure _)
    split
    · exact h.of_eq rfl rfl rfl
    · exact h
  | some loc =>
    simp only [finishRequest]
    split
    · trivial
    · exact Released.parents (completePrefetch_keeps _ _) (completePrefetch_releases _ _) hs
        (hs.keyed _ _ hw) h (hs.allocated _ _ hw)

section Request

variable (act : ActionOps A)

theorem skipRequest_released {req : PrefetchRequest A} {b : Block} {waiting : Option Nat}
    {s : BlockPrefetcher A} (hs : Wf store s) (h : Released s) (hw : s.prefetches req.ptr.id = waiting) :
    (skipRequest act req b waiting s).Holds (fun _ => True) Released := by
  unfold skipRequest
  cases waiting with
  | none => exact h
  | some loc =>
    dsimp only
    split
    · exact Released.ptrParents cancelPrefetch_keeps cancelPrefetch_releases hs (hs.keyed _ _ hw) h
        (hs.allocated _ _ hw)
    · exact h

theorem stopIfNeeded_released (req : PrefetchRequest A) (space : DiskCacheSpace)
    {s : BlockPrefetcher A} (h : Released s) : Released (stopIfNeeded act req space s).2 := by
  unfold stopIfNeeded
  split
  · split
    · exact h.of_eq rfl rfl rfl
    · exact h
  · exact h

/-- A new record enumeration starts from is open, so its entry names it, also after
    `handlePrefetch`, and `prefetchChildren` storing it again changes nothing. -/
theorem Released.restore {s t : BlockPrefetcher A} (h : Released s) {req : PrefetchRequest A}
    {isNew : Bool} {loc : Nat} (hk : (s.heap loc).req.ptr.id = req.ptr.id) (hl : loc < s.next)
    (hn : isNew = true → (s.heap loc).closed = false) (hts : t.Extends s) :
    (if isNew = true then t.setPrefetch req.ptr.id loc else t) = t := by
  split
  · rename_i hnew
    exact setPrefetch_of_eq (hts.prefetches _ _ (by rw [← hk]; exact h.stored hl (hn hnew)))
  · rfl

variable [DecidableEq A]

theorem updateRecord_released {req : PrefetchRequest A} {waiting : Option Nat}
    {s : BlockPrefetcher A} (hs : Wf store s) (h : Released s) (hw : s.prefetches req.ptr.id = waiting) :
    (updateRecord act req waiting s).Holds (fun _ => True) fun r => Released r.2 := by
  cases waiting with
  | none => exact h.allocSet rfl hw
  | some loc =>
    have hk := hs.keyed _ _ hw
    have hl := hs.allocated _ _ hw
    simp only [updateRecord]
    refine Except.Holds.ite (fun _ => ?_) fun _ => ?_
    · split
      · refine Except.Holds.bind (Released.ptrParents cancelPrefetch_keeps cancelPrefetch_releases
          hs hk h hl) fun t ht => ?_
        exact Except.Holds.ite (fun _ => ht.modify rfl rfl) fun _ => ht
      · exact Except.Holds.ite (fun _ => h.modify rfl rfl) fun _ => h
    · split
      · trivial
      · simp only [Except.Holds.pure_bind]
        exact Except.Holds.bind (Released.parents decrementPrefetch_keeps decrementPrefetch_releases
          hs hk h hl) fun t ht => ht.modify rfl rfl

/-- Enumeration from a record of the block. -/
theorem prefetchChildren_released {req : PrefetchRequest A} {solo : Nat → Bool} {isNew : Bool} {loc : Nat}
    {s : BlockPrefetcher A} (hs : Wf store s) (h : Released s)
    (hk : (s.heap loc).req.ptr.id = req.ptr.id) (hl : loc < s.next)
    (hn : isNew = true → (s.heap loc).closed = false) :
    (prefetchChildren act req solo isNew (store req.ptr.id) loc s).Holds (fun _ => True) Released := by
  unfold prefetchChildren
  refine Except.Holds.bind (((handlePrefetch_holds act hs fun p hp => hk ▸ ⟨p, hp, rfl⟩).imp_error
    fun _ _ => trivial).and (handlePrefetch_released act h)) fun r hr => ?_
  obtain ⟨result, t⟩ := r
  obtain ⟨⟨ht, hts⟩, htr⟩ := hr
  have hkt : (t.heap loc).req.ptr.id = req.ptr.id := by rw [hts.ptr loc hl]; exact hk
  have hlt : loc < t.next := lt_of_lt_of_le hl hts.next
  dsimp only
  split
  · exact htr
  · split
    · exact Released.parents (completePrefetch_keeps 0 solo) (completePrefetch_releases 0 solo) ht hkt htr hlt
    · split
      · exact htr
      · rw [h.restore hk hl hn hts]
        exact Released.parents (addSubtreeBlocks_keeps _) (addSubtreeBlocks_releases _) ht hkt htr hlt

theorem handleRequest_released {req : PrefetchRequest A} {fetched : Bool} {space : DiskCacheSpace}
    {solo : Nat → Bool} {s : BlockPrefetcher A} (hs : Wf store s) (h : Released s) :
    (handleRequest act store req fetched space solo s).Holds (fun _ => True) Released := by
  have hc := hs.of_within (Within.clearRescheduleState s req.ptr.id)
  have hrc : Released (s.clearRescheduleState req.ptr.id) := h.of_eq (by simp) (by simp) (by simp)
  have hw := congrFun (clearRescheduleState_prefetches s req.ptr.id) req.ptr.id
  simp only [handleRequest, pure_bind, bind_pure]
  refine Except.Holds.ite (fun _ => hrc.of_eq rfl rfl rfl) fun _ => ?_
  refine Except.Holds.ite (fun _ => hrc) fun _ => ?_
  refine Except.Holds.ite (fun _ => finishRequest_released hc hrc hw) fun _ => ?_
  refine Except.Holds.ite (fun _ => skipRequest_released act hc hrc hw) fun _ => ?_
  refine Except.Holds.ite (fun _ => hrc) fun _ => ?_
  obtain ⟨hsw, hsp⟩ := stopIfNeeded_spec act req space (s.clearRescheduleState req.ptr.id)
  have hrs := stopIfNeeded_released act req space hrc
  refine Except.Holds.ite (fun _ => hrs) fun _ => ?_
  have hw' : (stopIfNeeded act req space (s.clearRescheduleState req.ptr.id)).2.prefetches
      req.ptr.id = s.prefetches req.ptr.id := by rw [hsp]; exact hw
  refine Except.Holds.bind ((updateRecord_holds act WalkBound.any (hc.of_within hsw) hw').and
    (updateRecord_released act (hc.of_within hsw) hrs hw')) fun r hr => ?_
  split
  · exact hr.2
  · rename_i loc hloc
    obtain ⟨hk, hl, hn⟩ := hr.1.2 loc hloc
    exact prefetchChildren_released act hr.1.1 hr.2 hk hl fun h' => hn (Option.isNone_iff_eq_none.1 h')

theorem handleEvent_released (e : Event A) {s : BlockPrefetcher A} (hs : Wf store s)
    (h : Released s) : (handleEvent act store e s).Holds (fun _ => True) Released := by
  cases e with
  | request req fetched space solo => exact handleRequest_released act hs h
  | cancel ptr => exact handleCancel_released hs h
  | reschedule req stops => exact handleReschedule_released hs h

end Request

/-- Reordering the buckets of every record keeps every ID and closed flag. -/
theorem Released.reorder {s : BlockPrefetcher A} (h : Released s) {heap : Nat → Prefetch A}
    (hh : ∀ loc, (s.heap loc).SameParents (heap loc)) : Released { s with heap } := by
  intro l hl hn
  show (heap l).closed = true
  rw [(hh l).closed]
  exact h l hl (by rwa [(hh l).req] at hn)

section Runs

variable [DecidableEq A] [Inhabited A] (act : ActionOps A) (store : Nat → Block)

/-- Every state the worker reaches, under any order of map iteration, is released. -/
theorem reachable_released {s : BlockPrefetcher A} (h : Reachable act store s) : Released s := by
  induction h with
  | init => exact .empty
  | step e hr he ih => exact (handleEvent_released act e (reachable_wf act hr) ih).of_ok he
  | reorder heap _ hh ih => exact ih.reorder hh

/-- Whatever the goroutines do, the worker's state stays released: it changes only by an
    event `run` handles or by the timers stopped when `run` starts shutting down. -/
theorem sysReachable_released {s : System A} (h : SysReachable act store s) : Released s.pf := by
  induction h with
  | init => exact .empty
  | step m hr hm ih =>
    rcases step_pf hm with hp | ⟨-, e, he⟩ | hp
    · exact hp ▸ ih
    · exact (handleEvent_released act e (sysReachable_inv act store hr).wf ih).of_ok he
    · exact hp ▸ ih

/-- In every state the prefetcher's goroutines reach, over any block store and under any
    interleaving of `run`, `shutdownLoop`, the callers and `Shutdown`, before and after `run`
    returns, an allocated record's wait channel is open exactly when an ID of `prefetches`
    names the record. -/
theorem sysReachable_open_iff {s : System A} (h : SysReachable act store s) {loc : Nat}
    (hl : loc < s.pf.next) : (s.pf.heap loc).closed = false ↔ ∃ id, s.pf.prefetches id = some loc :=
  ⟨fun hc => ⟨_, (sysReachable_released act store h).stored hl hc⟩,
    fun ⟨id, hid⟩ => (sysReachable_inv act store h).wf.isOpen id loc hid⟩

end Runs

/-- A caller's reschedule of block 1, a top block, handled by `run`: the record made for it
    leaves `prefetches` at once, closed. -/
theorem rescheduleMoves_close_record :
    ∃ s : System Unit, SysReachable ActionOps.unit (fun _ => .file false []) s ∧ 0 < s.pf.next ∧
      ((s.pf.heap 0).closed = false ↔ ∃ id, s.pf.prefetches id = some 0) ∧
      (s.pf.heap 0).closed = true := by
  have hr := SysReachable.runMoves ActionOps.unit (fun _ => .file false []) .init
    (show runMoves ActionOps.unit (fun _ => .file false [])
      [.call (.reschedule ⟨⟨1, 0⟩, 0, .noPrefetch, (), false⟩ fun _ => false), .send 0,
        .handle .reschedule] .init = _ from rfl)
  exact ⟨_, hr, by decide, sysReachable_open_iff ActionOps.unit _ hr (by decide), rfl⟩

end KbfsPrefetcher
