import KbfsPrefetcher.Invariant

/-
  Every reachable state is `Wf` (`reachable_wf`): in particular every parent pointer a
  record holds, live or stale, names a block that lists the record's block among its
  children. `request` is the only place a pointer is added, with `parentPtr` the request
  pointer of the record whose block was just fetched and enumerated; that record was made
  for a request of the same ID (also after `pre.req` is replaced by a reschedule), so the
  pointer follows the block store.

  Consequently the parent-edge graph of every reachable state is acyclic when the block
  store's child relation is (`parentEdge_acyclic`).
-/

namespace KbfsPrefetcher

open BlockPrefetcher

variable {A : Type} {store : Nat → Block}

/-! ## Growing the forest -/

/-- `s'` extends `s`: more records allocated, every stored record still stored, and the
    records allocated in `s` keep their request pointer, closed and triggered flags. -/
structure BlockPrefetcher.Extends (s' s : BlockPrefetcher A) : Prop where
  next : s.next ≤ s'.next
  prefetches : ∀ id loc, s.prefetches id = some loc → s'.prefetches id = some loc
  ptr : ∀ loc < s.next, (s'.heap loc).req.ptr = (s.heap loc).req.ptr
  closed : ∀ loc < s.next, (s'.heap loc).closed = (s.heap loc).closed
  triggered : ∀ loc < s.next, (s'.heap loc).subtreeTriggered = (s.heap loc).subtreeTriggered

namespace BlockPrefetcher.Extends

@[refl] theorem refl (s : BlockPrefetcher A) : s.Extends s :=
  ⟨le_rfl, fun _ _ h => h, fun _ _ => rfl, fun _ _ => rfl, fun _ _ => rfl⟩

theorem trans {s'' s' s : BlockPrefetcher A} (h₂ : s''.Extends s') (h₁ : s'.Extends s) :
    s''.Extends s :=
  ⟨h₁.next.trans h₂.next, fun id loc h => h₂.prefetches id loc (h₁.prefetches id loc h),
    fun loc hl => (h₂.ptr loc (lt_of_lt_of_le hl h₁.next)).trans (h₁.ptr loc hl),
    fun loc hl => (h₂.closed loc (lt_of_lt_of_le hl h₁.next)).trans (h₁.closed loc hl),
    fun loc hl => (h₂.triggered loc (lt_of_lt_of_le hl h₁.next)).trans (h₁.triggered loc hl)⟩

/-- A write that keeps the request pointer, the closed and triggered flags. -/
theorem modify {s : BlockPrefetcher A} {loc : Nat} {g : Prefetch A → Prefetch A}
    (hp : (g (s.heap loc)).req.ptr = (s.heap loc).req.ptr)
    (hc : (g (s.heap loc)).closed = (s.heap loc).closed)
    (ht : (g (s.heap loc)).subtreeTriggered = (s.heap loc).subtreeTriggered) :
    (s.modify loc g).Extends s := by
  refine ⟨le_rfl, fun _ _ h => h, fun l _ => ?_, fun l _ => ?_, fun l _ => ?_⟩ <;>
    by_cases hl : l = loc <;> simp [hl, hp, hc, ht]

theorem emit (s : BlockPrefetcher A) (o) : (s.emit o).Extends s :=
  ⟨le_rfl, fun _ _ h => h, fun _ _ => rfl, fun _ _ => rfl, fun _ _ => rfl⟩

end BlockPrefetcher.Extends

theorem Wf.alloc {s : BlockPrefetcher A} (hs : Wf store s) {pp : Prefetch A} (hp : pp.parents = []) :
    Wf store (s.alloc pp).2 where
  allocated id loc h := Nat.lt_succ_of_lt (hs.allocated id loc h)
  keyed id loc h := by
    simp only [alloc_heap, Nat.ne_of_lt (hs.allocated id loc h), if_false]
    exact hs.keyed id loc h
  isOpen id loc h := by
    simp only [alloc_heap, Nat.ne_of_lt (hs.allocated id loc h), if_false]
    exact hs.isOpen id loc h
  edges loc q hq := by
    by_cases hl : loc = s.next
    · simp [hl, hp, allParents] at hq
    · simp only [alloc_heap, hl, if_false] at hq ⊢
      exact hs.edges loc q hq
  goMap loc := by
    by_cases hl : loc = s.next
    · simp only [alloc_heap, hl, if_true, hp]
      exact ⟨List.nodup_nil, nofun⟩
    · simpa [hl] using hs.goMap loc

theorem Extends.alloc (s : BlockPrefetcher A) (pp : Prefetch A) : (s.alloc pp).2.Extends s :=
  ⟨Nat.le_succ _, fun _ _ h => h, fun l hl => by simp [Nat.ne_of_lt hl],
    fun l hl => by simp [Nat.ne_of_lt hl], fun l hl => by simp [Nat.ne_of_lt hl]⟩

theorem Wf.setPrefetch {s : BlockPrefetcher A} (hs : Wf store s) {id loc : Nat} (hl : loc < s.next)
    (hk : (s.heap loc).req.ptr.id = id) (hc : (s.heap loc).closed = false) :
    Wf store (s.setPrefetch id loc) := by
  have stored : ∀ i l, (s.setPrefetch id loc).prefetches i = some l →
      (i = id ∧ l = loc) ∨ s.prefetches i = some l := by
    intro i l h
    by_cases hi : i = id
    · simp only [setPrefetch_prefetches, hi, if_true, Option.some.injEq] at h; exact .inl ⟨hi, h.symm⟩
    · simp only [setPrefetch_prefetches, hi, if_false] at h; exact .inr h
  refine ⟨fun i l h => ?_, fun i l h => ?_, fun i l h => ?_, hs.edges, hs.goMap⟩ <;>
    rcases stored i l h with ⟨rfl, rfl⟩ | h
  exacts [hl, hs.allocated i l h, hk, hs.keyed i l h, hc, hs.isOpen i l h]

theorem Extends.setPrefetch {s : BlockPrefetcher A} {id loc : Nat} (hn : s.prefetches id = none) :
    (s.setPrefetch id loc).Extends s :=
  ⟨le_rfl, fun i l h => by
    by_cases hi : i = id
    · rw [hi, hn] at h; cases h
    · simpa [hi] using h, fun _ _ => rfl, fun _ _ => rfl, fun _ _ => rfl⟩

/-- Recording a parent pointer that follows the block store. -/
theorem Wf.addParent {s : BlockPrefetcher A} (hs : Wf store s) {loc n : Nat} {q : BlockPointer}
    (hq : ChildOf store q.id (s.heap loc).req.ptr.id) :
    Wf store (s.modify loc fun pp => { pp with parents := addParent n q pp.parents }) where
  allocated := hs.allocated
  keyed id l h := by
    have := hs.keyed id l h
    by_cases hl : l = loc
    · subst hl; simpa using this
    · simpa [hl] using this
  isOpen id l h := by
    have := hs.isOpen id l h
    by_cases hl : l = loc
    · subst hl; simpa using this
    · simpa [hl] using this
  edges l p hp := by
    by_cases hl : l = loc
    · subst hl
      simp only [modify_heap, if_true] at hp ⊢
      rcases mem_allParents_addParent hp with rfl | hp
      · exact hq
      · exact hs.edges _ p hp
    · simp only [modify_heap, hl, if_false] at hp ⊢
      exact hs.edges l p hp
  goMap l := by
    by_cases hl : l = loc
    · subst hl; simpa using goMap_addParent (hs.goMap l) n q
    · simpa [hl] using hs.goMap l

/-! ## Child enumeration -/

section Enumeration

theorem childRecord_spec (priority : Int) (ptr : BlockPointer) (action : A) {s : BlockPrefetcher A}
    (hs : Wf store s) :
    let r := childRecord priority ptr action s
    Wf store r.2.2 ∧ r.2.2.Extends s ∧ r.2.2.prefetches ptr.id = some r.2.1 := by
  unfold childRecord
  split
  · rename_i loc h
    exact ⟨hs, .refl s, h⟩
  · rename_i h
    exact ⟨(hs.alloc rfl).setPrefetch (by simp) (by simp [newPrefetch]) (by simp [newPrefetch]),
      (Extends.setPrefetch (by simpa using h)).trans (Extends.alloc _ _), by simp⟩

theorem recordParent_holds {ptr parentPtr : BlockPointer} {isParentNew : Bool} {loc : Nat}
    {s : BlockPrefetcher A} (hs : Wf store s) (hk : (s.heap loc).req.ptr.id = ptr.id)
    (hc : ChildOf store parentPtr.id ptr.id) :
    (recordParent ptr parentPtr isParentNew loc s).Holds (· ≠ .stackExhausted)
      fun r => Wf store r.2 ∧ r.2.Extends s := by
  simp only [recordParent]
  split
  · exact nofun
  · simp only [Except.Holds.pure_bind]
    split
    · exact ⟨hs.addParent (hk ▸ hc), (Extends.modify rfl rfl rfl : (s.modify loc fun pp =>
        { pp with parents := addParent ptr.refNonce parentPtr pp.parents }).Extends s)⟩
    · exact ⟨hs, .refl s⟩

variable [DecidableEq A] (act : ActionOps A)

theorem sendChildRequest_spec (priority : Int) (ptr : BlockPointer) (action : A) (w : Bool)
    (loc : Nat) {s : BlockPrefetcher A} (hs : Wf store s) :
    let s' := sendChildRequest act priority ptr action w loc s
    Wf store s' ∧ s'.Extends s ∧ s'.prefetches = s.prefetches := by
  dsimp only [sendChildRequest]
  split
  · exact ⟨hs.of_within ((Within.emit _ _).trans (Within.modify rfl (List.Subset.refl _) id rfl rfl)),
      (Extends.emit _ _).trans (Extends.modify rfl rfl rfl), rfl⟩
  · exact ⟨hs, .refl s, rfl⟩

theorem request_holds {priority : Int} {ptr parentPtr : BlockPointer} {isParentNew : Bool}
    {action : A} {idsSeen : List Nat} {s : BlockPrefetcher A} (hs : Wf store s)
    (hc : ChildOf store parentPtr.id ptr.id) :
    (request act priority ptr parentPtr isParentNew action idsSeen s).Holds (· ≠ .stackExhausted)
      fun r => Wf store r.2.2 ∧ r.2.2.Extends s := by
  simp only [request]
  split
  · exact ⟨hs, .refl s⟩
  · simp only [Except.Holds.pure_bind]
    obtain ⟨hs1, he1, hl1⟩ := childRecord_spec priority ptr action hs
    generalize childRecord priority ptr action s = r at hs1 he1 hl1 ⊢
    obtain ⟨w, loc, s1⟩ := r
    obtain ⟨hs2, he2, hp2⟩ := sendChildRequest_spec act priority ptr action w loc hs1
    refine Except.Holds.bind (recordParent_holds hs2 (hs2.keyed _ _ (hp2 ▸ hl1)) hc)
      fun r hr => ⟨hr.1, hr.2.trans (he2.trans he1)⟩

theorem requestEach_holds {priority : Int} {parentPtr : BlockPointer} {isParentNew : Bool}
    {action : A} :
    ∀ (ptrs : List BlockPointer) (numBlocks : Int) (idsSeen : List Nat) (s : BlockPrefetcher A),
      Wf store s → (∀ p ∈ ptrs, ChildOf store parentPtr.id p.id) →
      (requestEach act priority parentPtr isParentNew action ptrs numBlocks idsSeen s).Holds
        (· ≠ .stackExhausted) fun r => Wf store r.2 ∧ r.2.Extends s
  | [], _, _, s, hs, _ => ⟨hs, .refl s⟩
  | p :: ps, _, _, s, hs, hc => by
    simp only [requestEach]
    refine Except.Holds.bind (request_holds act hs (hc p (.head _))) fun r hr => ?_
    obtain ⟨n, ids, s'⟩ := r
    exact (requestEach_holds ps _ _ s' hr.1 fun q hq => hc q (.tail _ hq)).imp
      fun r' h => ⟨h.1, h.2.trans hr.2⟩

theorem prefetchIndirectBlock_holds {parentPtr : BlockPointer} {iptrs : List BlockPointer}
    {isNew : Bool} {action : A} {basePriority : Int} {s : BlockPrefetcher A} (hs : Wf store s)
    (hc : ∀ p ∈ iptrs, ChildOf store parentPtr.id p.id) :
    (prefetchIndirectBlock act parentPtr iptrs isNew action basePriority s).Holds
      (· ≠ .stackExhausted)
      fun r => Wf store r.2.2 ∧ r.2.2.Extends s :=
  Except.Holds.bind (requestEach_holds act _ _ _ s hs hc) fun _ h => h

theorem prefetchDirectDirBlock_holds {parentPtr : BlockPointer} {children : List DirEntry}
    {isNew : Bool} {action : A} {basePriority : Int} {s : BlockPrefetcher A} (hs : Wf store s)
    (hc : ∀ e ∈ children, e.type.isPrefetchable → ChildOf store parentPtr.id e.ptr.id) :
    (prefetchDirectDirBlock act parentPtr children isNew action basePriority s).Holds
      (· ≠ .stackExhausted) fun r => Wf store r.2.2 ∧ r.2.2.Extends s := by
  refine Except.Holds.bind (requestEach_holds act _ _ _ s hs fun p hp => ?_) fun _ h => h
  simp only [List.mem_map, List.mem_filter] at hp
  obtain ⟨e, ⟨he, hpf⟩, rfl⟩ := hp
  exact hc e ((List.perm_insertionSort _ children).subset he) hpf

/-- Enumerating the children of `b` from the record at `loc` keeps `Wf` when `b`'s
    children are children, in the block store, of that record's block. -/
theorem handlePrefetch_holds {loc : Nat} {isNew : Bool} {action : A} {b : Block}
    {s : BlockPrefetcher A} (hs : Wf store s)
    (hc : ∀ p ∈ b.childPtrs, ChildOf store (s.heap loc).req.ptr.id p.id) :
    (handlePrefetch act loc isNew action b s).Holds (· ≠ .stackExhausted)
      fun r => Wf store r.2 ∧ r.2.Extends s := by
  unfold handlePrefetch
  cases b with
  | file isInd iptrs =>
    cases isInd
    · exact ⟨hs, .refl s⟩
    · exact Except.Holds.bind (prefetchIndirectBlock_holds act hs hc) fun _ h => h
  | dir isInd iptrs children =>
    cases isInd
    · refine Except.Holds.bind (prefetchDirectDirBlock_holds act hs fun e he hpf => ?_)
        fun _ h => h
      exact hc e.ptr (List.mem_map.2 ⟨e, List.mem_filter.2 ⟨he, hpf⟩, rfl⟩)
    · exact Except.Holds.bind (prefetchIndirectBlock_holds act hs hc) fun _ h => h
  | common => exact ⟨hs, .refl s⟩

end Enumeration

/-! ## The handlers -/

/-- A write that keeps the record's ID, parent map and closed flag. -/
theorem Wf.modify {s : BlockPrefetcher A} (hs : Wf store s) {loc : Nat} {g : Prefetch A → Prefetch A}
    (hp : (g (s.heap loc)).req.ptr.id = (s.heap loc).req.ptr.id)
    (hq : (g (s.heap loc)).parents = (s.heap loc).parents)
    (hc : (g (s.heap loc)).closed = (s.heap loc).closed) : Wf store (s.modify loc g) where
  allocated := hs.allocated
  keyed id l h := by
    by_cases hl : l = loc
    · subst hl; simpa [hp] using hs.keyed id l h
    · simpa [hl] using hs.keyed id l h
  isOpen id l h := by
    by_cases hl : l = loc
    · subst hl; simpa [hc] using hs.isOpen id l h
    · simpa [hl] using hs.isOpen id l h
  edges l q hm := by
    by_cases hl : l = loc
    · subst hl
      simp only [modify_heap, if_true] at hm ⊢
      rw [hp]
      exact hs.edges l q (hq ▸ hm)
    · simp only [modify_heap, hl, if_false] at hm ⊢
      exact hs.edges l q hm
  goMap l := by
    by_cases hl : l = loc
    · subst hl; simpa [hq] using hs.goMap l
    · simpa [hl] using hs.goMap l

/-- What the handlers need of the walks they start: failures `E` that admit every abort
    but running out of depth, and a depth argument `Enough` that holds, at the bound `run`
    passes, from every well-formed state. -/
structure WalkBound (store : Nat → Block) (E : Abort → Prop)
    (Enough : Nat → Nat → BlockPrefetcher A → Prop) : Prop where
  fuel : FuelSpec store E Enough
  start : ∀ s loc, Wf store s → Enough s.walkFuel loc s
  aborts : ∀ e, e ≠ .stackExhausted → E e

/-- No depth argument: running out of depth is admitted with every other abort. -/
theorem WalkBound.any : WalkBound store (fun _ => True) fun _ _ (_ : BlockPrefetcher A) => True :=
  ⟨FuelSpec.any, fun _ _ _ => trivial, fun _ _ => trivial⟩

variable {E : Abort → Prop} {Enough : Nat → Nat → BlockPrefetcher A → Prop}

/-- The walk through every bucket, as `run` starts it. -/
theorem WalkBound.parents (hB : WalkBound store E Enough) {f : WalkFn A Nat}
    (hf : f.Keeps store (· ≠ .stackExhausted) id) {blockID loc : Nat} {s : BlockPrefetcher A}
    (hs : Wf store s) (hk : (s.heap loc).req.ptr.id = blockID) :
    (applyToParentsRecursive f s.walkFuel blockID loc s).Holds E
      fun t => Wf store t ∧ t.Within s :=
  applyToParentsRecursive_holds LoopRel.within hB.fuel (hf.mono hB.aborts).appliesHolds _ _ _ _ hs hk
    (hB.start _ _ hs)

/-- The walk along one ref-nonce's bucket, as `run` starts it. -/
theorem WalkBound.ptrParents (hB : WalkBound store E Enough) {f : WalkFn A BlockPointer}
    (hf : f.Keeps store (· ≠ .stackExhausted) BlockPointer.id) {ptr : BlockPointer} {loc : Nat}
    {s : BlockPrefetcher A} (hs : Wf store s) (hk : (s.heap loc).req.ptr.id = ptr.id) :
    (applyToPtrParentsRecursive f s.walkFuel ptr loc s).Holds E
      fun t => Wf store t ∧ t.Within s :=
  applyToPtrParentsRecursive_holds LoopRel.within hB.fuel (hf.mono hB.aborts).appliesHolds _ _ _ _ hs
    hk (hB.start _ _ hs)

theorem handleCancel_holds (hB : WalkBound store E Enough) {ptr : BlockPointer}
    {s : BlockPrefetcher A} (hs : Wf store s) : (handleCancel ptr s).Holds E (Wf store) := by
  unfold handleCancel
  split
  · exact hs
  · exact (hB.ptrParents cancelPrefetch_keeps hs (hs.keyed _ _ ‹_›)).imp fun _ => And.left

theorem handleReschedule_holds (hB : WalkBound store E Enough) {req : PrefetchRequest A}
    {stops : Nat → Bool} {s : BlockPrefetcher A} (hs : Wf store s) :
    (handleReschedule req stops s).Holds E (Wf store) := by
  unfold handleReschedule
  cases h : s.prefetches req.ptr.id with
  | none =>
    exact (hB.parents (rescheduleTopBlock_keeps stops)
      ((hs.alloc rfl).setPrefetch (by simp) (by simp [newPrefetch]) (by simp [newPrefetch]))
      (by simp [newPrefetch])).imp fun _ => And.left
  | some loc =>
    exact (hB.parents (rescheduleTopBlock_keeps stops) (hs.modify (hs.keyed _ _ h).symm rfl rfl)
      (by simp)).imp fun _ => And.left

theorem finishRequest_holds (hB : WalkBound store E Enough) {req : PrefetchRequest A}
    {solo : Nat → Bool} {waiting : Option Nat} {s : BlockPrefetcher A} (hs : Wf store s)
    (hw : s.prefetches req.ptr.id = waiting) :
    (finishRequest req solo waiting s).Holds E (Wf store) := by
  cases waiting with
  | none =>
    show Except.Holds _ _ (pure _)
    split
    · exact hs.of_within (Within.emit _ _)
    · exact hs
  | some loc =>
    simp only [finishRequest]
    split
    · exact hB.aborts _ nofun
    · exact (hB.parents (completePrefetch_keeps _ _) hs (hs.keyed _ _ hw)).imp fun _ => And.left

/-- Reordering the buckets of every record, as Go's map iteration may, keeps `Wf`. -/
theorem Prefetch.SameParents.allParents_subset {r r' : Prefetch A} (h : r.SameParents r') :
    allParents r'.parents ⊆ allParents r.parents := by
  obtain ⟨-, ps, hp, hf⟩ := h
  refine List.Subset.trans ?_ (hp.flatMap_right _).subset
  clear hp
  generalize r'.parents = qs at hf
  induction hf with
  | nil => exact List.Subset.refl _
  | cons hb _ ih =>
    simp only [allParents, List.flatMap_cons] at ih ⊢
    exact List.append_subset.2 ⟨hb.2.symm.subset.trans (List.subset_append_left _ _),
      ih.trans (List.subset_append_right _ _)⟩

theorem Prefetch.SameParents.req {r r' : Prefetch A} (h : r.SameParents r') : r'.req = r.req := by
  rw [h.1]

theorem Prefetch.SameParents.closed {r r' : Prefetch A} (h : r.SameParents r') :
    r'.closed = r.closed := by
  rw [h.1]

/-- Reordering keeps a Go map one: the ref-nonces are permuted, each bucket's pointers too. -/
theorem Prefetch.SameParents.goMap {r r' : Prefetch A} (h : r.SameParents r') (hg : GoMap r.parents) :
    GoMap r'.parents := by
  obtain ⟨-, ps, hp, hf⟩ := h
  generalize r'.parents = qs at hf ⊢
  have key : ps.map Prod.fst = qs.map Prod.fst ∧ ∀ b' ∈ qs, ∃ b ∈ ps, b.2.Perm b'.2 := by
    clear hp
    induction hf with
    | nil => exact ⟨rfl, nofun⟩
    | cons hb _ ih =>
      refine ⟨by simp [hb.1, ih.1], fun c hc => ?_⟩
      rcases List.mem_cons.1 hc with rfl | hc
      · exact ⟨_, .head _, hb.2⟩
      · obtain ⟨b, hb', e⟩ := ih.2 c hc
        exact ⟨b, .tail _ hb', e⟩
  refine ⟨key.1 ▸ (hp.map Prod.fst).nodup_iff.2 hg.1, fun b' hb' => ?_⟩
  obtain ⟨b, hb, e⟩ := key.2 b' hb'
  exact e.nodup_iff.1 (hg.2 b (hp.subset hb))

theorem Wf.reorder {s : BlockPrefetcher A} (hs : Wf store s) {heap : Nat → Prefetch A}
    (h : ∀ loc, (s.heap loc).SameParents (heap loc)) : Wf store { s with heap } where
  allocated := hs.allocated
  keyed id loc hid := (congrArg (·.ptr.id) (h loc).req).trans (hs.keyed id loc hid)
  isOpen id loc hid := (h loc).closed.trans (hs.isOpen id loc hid)
  edges loc q hq := (congrArg (·.ptr.id) (h loc).req) ▸ hs.edges loc q ((h loc).allParents_subset hq)
  goMap loc := (h loc).goMap (hs.goMap loc)

section Handlers

variable (act : ActionOps A)

theorem skipRequest_holds (hB : WalkBound store E Enough) {req : PrefetchRequest A} {b : Block}
    {waiting : Option Nat} {s : BlockPrefetcher A} (hs : Wf store s)
    (hw : s.prefetches req.ptr.id = waiting) :
    (skipRequest act req b waiting s).Holds E (Wf store) := by
  unfold skipRequest
  cases waiting with
  | none => exact hs
  | some loc =>
    dsimp only
    split
    · exact (hB.ptrParents cancelPrefetch_keeps hs (hs.keyed _ _ hw)).imp fun _ => And.left
    · exact hs

theorem stopIfNeeded_spec (req : PrefetchRequest A) (space : DiskCacheSpace) (s : BlockPrefetcher A) :
    (stopIfNeeded act req space s).2.Within s ∧ (stopIfNeeded act req space s).2.prefetches = s.prefetches := by
  unfold stopIfNeeded
  split
  · split
    · exact ⟨Within.emit _ _, rfl⟩
    · exact ⟨.refl s, rfl⟩
  · exact ⟨.refl s, rfl⟩

variable [DecidableEq A]

/-- What `updateRecord` hands on: a well-formed state and, when enumeration goes on, the
    location of a record of the requested block (a fresh, open one when there was none). -/
def UpdatePost (store : Nat → Block) (req : PrefetchRequest A) (waiting : Option Nat)
    (r : Option Nat × BlockPrefetcher A) : Prop :=
  Wf store r.2 ∧ ∀ loc, r.1 = some loc → (r.2.heap loc).req.ptr.id = req.ptr.id ∧
    loc < r.2.next ∧ (waiting = none → (r.2.heap loc).closed = false)

theorem updateRecord_holds (hB : WalkBound store E Enough) {req : PrefetchRequest A}
    {waiting : Option Nat} {s : BlockPrefetcher A} (hs : Wf store s)
    (hw : s.prefetches req.ptr.id = waiting) :
    (updateRecord act req waiting s).Holds E (UpdatePost store req waiting) := by
  cases waiting with
  | none =>
    refine ⟨(hs.alloc rfl).setPrefetch (by simp) (by simp [newPrefetch]) (by simp [newPrefetch]),
      fun loc h => ?_⟩
    cases h
    simp [newPrefetch]
  | some loc =>
    -- the record stays at `loc` with its key through the walks and the action update
    have post : ∀ t : BlockPrefetcher A, Wf store t → t.Within s → ∀ g : Prefetch A → Prefetch A,
        (∀ pp, (g pp).req.ptr = pp.req.ptr ∧ (g pp).parents = pp.parents ∧ (g pp).closed = pp.closed) →
        UpdatePost store req (some loc) (some loc, t.modify loc g) :=
      fun t ht hts g hg => ⟨ht.modify (by rw [(hg _).1]) (hg _).2.1 (hg _).2.2,
        fun l hl' => by
          cases hl'
          exact ⟨by simp [(hg _).1, hts.ptr, hs.keyed _ _ hw], by simp [hts.next, hs.allocated _ _ hw],
            fun h => by cases h⟩⟩
    have walk := hB.ptrParents cancelPrefetch_keeps hs (hs.keyed _ _ hw)
    simp only [updateRecord]
    refine Except.Holds.ite (fun _ => ?_) fun _ => ?_
    · split
      · refine Except.Holds.bind walk fun t ht => ?_
        exact Except.Holds.ite (fun _ => post t ht.1 ht.2 _ fun _ => ⟨rfl, rfl, rfl⟩)
          fun _ => ⟨ht.1, fun _ h => by cases h⟩
      · exact Except.Holds.ite (fun _ => post s hs (.refl s) _ fun _ => ⟨rfl, rfl, rfl⟩)
          fun _ => ⟨hs, fun _ h => by cases h⟩
    · split
      · exact hB.aborts _ nofun
      · simp only [Except.Holds.pure_bind]
        exact Except.Holds.bind (hB.parents decrementPrefetch_keeps hs (hs.keyed _ _ hw))
          fun t ht => post t ht.1 ht.2 _ fun _ => ⟨rfl, rfl, rfl⟩

theorem prefetchChildren_holds (hB : WalkBound store E Enough) {req : PrefetchRequest A}
    {solo : Nat → Bool} {isNew : Bool} {loc : Nat} {s : BlockPrefetcher A} (hs : Wf store s)
    (hk : (s.heap loc).req.ptr.id = req.ptr.id) (hl : loc < s.next)
    (hc : isNew = true → (s.heap loc).closed = false) :
    (prefetchChildren act req solo isNew (store req.ptr.id) loc s).Holds E (Wf store) := by
  unfold prefetchChildren
  refine Except.Holds.bind ((handlePrefetch_holds act hs fun p hp => hk ▸ ⟨p, hp, rfl⟩).imp_error
    hB.aborts) fun r hr => ?_
  obtain ⟨result, t⟩ := r
  obtain ⟨ht, hts⟩ := hr
  have hkt : (t.heap loc).req.ptr.id = req.ptr.id := by rw [hts.ptr loc hl]; exact hk
  dsimp only
  split
  · exact ht
  · split
    · exact (hB.parents (completePrefetch_keeps 0 solo) ht hkt).imp fun _ => And.left
    · split
      · exact ht
      · cases isNew
        · exact (hB.parents (addSubtreeBlocks_keeps _) ht hkt).imp fun _ => And.left
        · exact (hB.parents (addSubtreeBlocks_keeps _) (ht.setPrefetch (lt_of_lt_of_le hl hts.next)
            hkt (by rw [hts.closed loc hl]; exact hc rfl)) hkt).imp fun _ => And.left

theorem handleRequest_holds (hB : WalkBound store E Enough) {req : PrefetchRequest A}
    {fetched : Bool} {space : DiskCacheSpace} {solo : Nat → Bool} {s : BlockPrefetcher A}
    (hs : Wf store s) : (handleRequest act store req fetched space solo s).Holds E (Wf store) := by
  have hc := hs.of_within (Within.clearRescheduleState s req.ptr.id)
  have hw := congrFun (clearRescheduleState_prefetches s req.ptr.id) req.ptr.id
  simp only [handleRequest, pure_bind, bind_pure]
  refine Except.Holds.ite (fun _ => hc.of_within (Within.emit _ _)) fun _ => ?_
  refine Except.Holds.ite (fun _ => hc) fun _ => ?_
  refine Except.Holds.ite (fun _ => finishRequest_holds hB hc hw) fun _ => ?_
  refine Except.Holds.ite (fun _ => skipRequest_holds act hB hc hw) fun _ => ?_
  refine Except.Holds.ite (fun _ => hc) fun _ => ?_
  obtain ⟨hsw, hsp⟩ := stopIfNeeded_spec act req space (s.clearRescheduleState req.ptr.id)
  refine Except.Holds.ite (fun _ => hc.of_within hsw) fun _ => ?_
  refine Except.Holds.bind (updateRecord_holds act hB (hc.of_within hsw) (by rw [hsp]; exact hw))
    fun r hr => ?_
  split
  · exact hr.1
  · rename_i loc hloc
    obtain ⟨hk, hl, hn⟩ := hr.2 loc hloc
    exact prefetchChildren_holds act hB hr.1 hk hl fun h => hn (Option.isNone_iff_eq_none.1 h)

/-- Every event handled from a well-formed state ends well formed, or in an abort `E`
    admits. -/
theorem handleEvent_holds (hB : WalkBound store E Enough) (e : Event A) {s : BlockPrefetcher A}
    (hs : Wf store s) : (handleEvent act store e s).Holds E (Wf store) := by
  cases e with
  | request req fetched space solo => exact handleRequest_holds act hB hs
  | cancel ptr => exact handleCancel_holds hB hs
  | reschedule req stops => exact handleReschedule_holds hB hs

/-- Every reachable state is well formed. -/
theorem reachable_wf [Inhabited A] {s : BlockPrefetcher A} (h : Reachable act store s) :
    Wf store s := by
  induction h with
  | init => exact .empty
  | step e _ he ih => exact (handleEvent_holds act WalkBound.any e ih).of_ok he
  | reorder heap _ hh ih => exact ih.reorder hh

end Handlers

/-! ## Acyclicity -/

/-- The block store's child relation has no cycle; content addressing makes it so, since
    a block names its children by hashes of their contents. -/
def StoreAcyclic (store : Nat → Block) : Prop := ∀ id, ¬Relation.TransGen (ChildOf store) id id

/-- A store whose blocks list only children of larger ID has no cycle. -/
theorem StoreAcyclic.of_lt (h : ∀ p c, ChildOf store p c → p < c) : StoreAcyclic store := by
  intro id hc
  suffices ∀ a b, Relation.TransGen (ChildOf store) a b → a < b from lt_irrefl _ (this _ _ hc)
  intro a b hab
  induction hab with
  | single h' => exact h _ _ h'
  | tail _ h' ih => exact ih.trans (h _ _ h')

/-- In a well-formed state a parent edge runs against a child edge of the store. -/
theorem Wf.childOf_of_parentEdge {s : BlockPrefetcher A} (hs : Wf store s) {c p : Nat}
    (h : ParentEdge s c p) : ChildOf store (s.heap p).req.ptr.id (s.heap c).req.ptr.id := by
  obtain ⟨q, hq, hp⟩ := h
  rw [hs.keyed _ _ hp]
  exact hs.edges c q hq

theorem Wf.parentEdge_acyclic {s : BlockPrefetcher A} (hs : Wf store s) (hst : StoreAcyclic store)
    (loc : Nat) : ¬Relation.TransGen (ParentEdge s) loc loc := fun h => by
  have h' : Relation.TransGen (fun a b => ChildOf store b a) (s.heap loc).req.ptr.id
      (s.heap loc).req.ptr.id :=
    Relation.TransGen.lift (fun l => (s.heap l).req.ptr.id) (fun _ _ => hs.childOf_of_parentEdge) h
  exact hst _ h'.swap

end KbfsPrefetcher
