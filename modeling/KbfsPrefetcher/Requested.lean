import KbfsPrefetcher.Release
import KbfsPrefetcher.Termination

/-
  A record that waits for its block had that block requested after it was made.

  A record that is not `subtreeTriggered` is counted as unfetched in each of its ancestors,
  and only a later request for its block, which `ProcessBlockForPrefetch` sends once the
  retriever has the block, triggers it. Such a record is made in two places. `request` makes
  one for a child it has not seen and, since `isPrefetchWaiting` is false, asks the retriever
  for the child's block in the same call (`RequestedSince.childRequest`). The reschedule case
  makes a placeholder for a block with no record, which `rescheduleTopBlock` takes out of the
  tree at once, as it has no parents (`rescheduleWalk_top`). No write clears the flag, and the
  outputs only grow.

  `RequestedSince s₀ s` compares a state with an earlier one: every record of `s` that waits
  either waited already in `s₀`, under the same ID, or was made after `s₀` and has a fetch of
  its block among the outputs added since. A walk keeps the flags, shrinks the tree and only
  adds outputs (`LoopRel.request`), so it keeps the relation; so do `request`
  (`request_requested`) and every handler (`handleEvent_requested`). Over every run from a
  reachable state, taken from the state before a record is made, this is
  `reachable_runEvents_requested`: the prefetcher never waits for a block it has not asked
  for since it made the record, whatever it asked for the same ID before.
-/

namespace KbfsPrefetcher

open BlockPrefetcher

variable {A : Type} {store : Nat → Block}

/-- Whether an output is a fetch of the block `id`. -/
def Output.fetchesId (id : Nat) : Output A → Bool
  | .fetch ptr _ _ => ptr.id == id
  | _ => false

/-- Every record of `s` that waits for its block either waited in `s₀` under the same ID, or
    was made after `s₀` and has a fetch of its block among the outputs `new` that `s` added to
    those of `s₀`. -/
def RequestedSince (s₀ s : BlockPrefetcher A) : Prop :=
  s₀.next ≤ s.next ∧ ∃ new, s.out = new ++ s₀.out ∧
    ∀ id loc, s.prefetches id = some loc → (s.heap loc).subtreeTriggered = false →
      loc < s₀.next ∧ s₀.prefetches id = some loc ∧ (s₀.heap loc).subtreeTriggered = false ∨
        s₀.next ≤ loc ∧ new.any (Output.fetchesId id) = true

theorem exists_fetch_of_any {out : List (Output A)} {id : Nat}
    (h : out.any (Output.fetchesId id) = true) :
    ∃ ptr priority action, Output.fetch ptr priority action ∈ out ∧ ptr.id = id := by
  obtain ⟨o, ho, hf⟩ := List.any_eq_true.1 h
  cases o with
  | fetch ptr priority action => exact ⟨ptr, priority, action, ho, beq_iff_eq.1 hf⟩
  | _ => cases hf

namespace RequestedSince

variable {s₀ s : BlockPrefetcher A}

/-- Every waiting record of a well-formed state waited in it. -/
theorem refl (hs : Wf store s) : RequestedSince s s :=
  ⟨le_rfl, [], rfl, fun id loc hid hun => .inl ⟨hs.allocated id loc hid, hid, hun⟩⟩

/-- A step that adds outputs, allocates only, and leaves no record waiting that did not wait
    under the same ID before. -/
theorem mono (h : RequestedSince s₀ s) {t : BlockPrefetcher A} (hn : s.next ≤ t.next)
    (ho : s.out <:+ t.out)
    (hw : ∀ id loc, t.prefetches id = some loc → (t.heap loc).subtreeTriggered = false →
      s.prefetches id = some loc ∧ (s.heap loc).subtreeTriggered = false) :
    RequestedSince s₀ t := by
  obtain ⟨hn₀, new, hnew, hr⟩ := h
  obtain ⟨x, hx⟩ := ho
  refine ⟨hn₀.trans hn, x ++ new, by rw [← hx, hnew, List.append_assoc], fun id loc hid hun => ?_⟩
  obtain ⟨hid', hun'⟩ := hw id loc hid hun
  exact (hr id loc hid' hun').imp_right fun ⟨hl, hf⟩ => ⟨hl, by simp [hf]⟩

/-- Two stretches of a run: the records of the end that wait were waiting at its start or
    made, and requested, within one of them. -/
theorem trans {s₁ : BlockPrefetcher A} (h₁ : RequestedSince s₀ s₁) (h₂ : RequestedSince s₁ s) :
    RequestedSince s₀ s := by
  obtain ⟨hn₁, new₁, ho₁, hr₁⟩ := h₁
  obtain ⟨hn₂, new₂, ho₂, hr₂⟩ := h₂
  refine ⟨hn₁.trans hn₂, new₂ ++ new₁, by rw [ho₂, ho₁, List.append_assoc], fun id loc hid hun => ?_⟩
  rcases hr₂ id loc hid hun with ⟨hl, hid₁, hun₁⟩ | ⟨hl, hf⟩
  · exact (hr₁ id loc hid₁ hun₁).imp_right fun ⟨hl', hf⟩ => ⟨hl', by simp [hf]⟩
  · exact .inr ⟨hn₁.trans hl, by simp [hf]⟩

theorem emit (h : RequestedSince s₀ s) (o : Output A) : RequestedSince s₀ (s.emit o) :=
  h.mono le_rfl (List.suffix_cons _ _) fun _ _ hid hun => ⟨hid, hun⟩

/-- A state within `s` with more outputs: no entry, no flag cleared. -/
theorem of_within (h : RequestedSince s₀ s) {t : BlockPrefetcher A} (hw : t.Within s)
    (ho : s.out <:+ t.out) : RequestedSince s₀ t :=
  h.mono hw.next.ge ho fun _ loc hid hun => ⟨hw.prefetches _ _ hid, (hw.triggered loc).symm.trans hun⟩

/-- A write that keeps the record's flag or marks it triggered. -/
theorem modify (h : RequestedSince s₀ s) {loc : Nat} {g : Prefetch A → Prefetch A}
    (ht : (g (s.heap loc)).subtreeTriggered = false → (s.heap loc).subtreeTriggered = false) :
    RequestedSince s₀ (s.modify loc g) :=
  h.mono le_rfl (List.suffix_refl _) fun _ l hid hun => ⟨hid, by
    by_cases e : l = loc
    · subst e
      exact ht (by simpa using hun)
    · simpa [e] using hun⟩

/-- A new record that does not wait, stored under an ID. -/
theorem allocSet (h : RequestedSince s₀ s) (hs : Wf store s) {pp : Prefetch A} (id : Nat)
    (ht : pp.subtreeTriggered = true) : RequestedSince s₀ ((s.alloc pp).2.setPrefetch id s.next) := by
  refine h.mono (by simp) (List.suffix_refl _) fun i l hid hun => ?_
  simp only [setPrefetch_prefetches, alloc_prefetches] at hid
  simp only [setPrefetch_heap, alloc_heap] at hun
  split_ifs at hid with e
  · cases hid
    simp [ht] at hun
  · rw [if_neg (hs.allocated _ _ hid).ne] at hun
    exact ⟨hid, hun⟩

end RequestedSince

/-! ## Walks -/

section Walks

variable {κ : Type} {E : Abort → Prop}

/-- What a walk from the record at `loc` of `s` may end in: a well-formed state within `s`
    whose outputs extend those of `s`. -/
def RequestRel (store : Nat → Block) (s : BlockPrefetcher A) (_ : Nat) (t : BlockPrefetcher A) :
    Prop :=
  (Wf store t ∧ t.Within s) ∧ s.out <:+ t.out

theorem LoopRel.request : LoopRel store (@RequestRel A store) (RequestRel store) where
  wf h := h.1
  refl _ hs := ⟨⟨hs, .refl _⟩, List.suffix_refl _⟩
  prune _ h hg hgo := ⟨LoopRel.within.prune _ h.1 hg hgo, h.2⟩
  parent hs h he hp h' := ⟨LoopRel.within.parent hs h.1 he hp h'.1, h.2.trans h'.2⟩

/-- A function a walk applies only adds outputs. -/
def WalkFn.Emits (f : WalkFn A κ) : Prop :=
  ∀ k loc t, (f k loc t).Holds (fun _ => True) fun u => t.out <:+ u.out

theorem WalkFn.Keeps.appliesHolds_request {key : κ → Nat} {f : WalkFn A κ}
    (hf : f.Keeps store E key) (he : f.Emits) : AppliesHolds E (RequestRel store) key f :=
  fun s k loc t ht hk => ((hf.appliesHolds s k loc t ht.1 hk).and (he k loc t)).imp
    fun _ h => ⟨h.1, ht.2.trans h.2⟩

/-- The walk through every bucket, as `run` starts it. -/
theorem walk_request {f : WalkFn A Nat} (hf : f.Keeps store (· ≠ .stackExhausted) id)
    (he : f.Emits) {blockID loc : Nat} {s : BlockPrefetcher A} (hs : Wf store s)
    (hk : (s.heap loc).req.ptr.id = blockID) :
    (applyToParentsRecursive f s.walkFuel blockID loc s).Holds (fun _ => True)
      (RequestRel store s loc) :=
  applyToParentsRecursive_holds LoopRel.request FuelSpec.any
    ((hf.mono fun _ _ => trivial).appliesHolds_request he) _ _ _ _ hs hk trivial

theorem RequestedSince.parents {f : WalkFn A Nat} (hf : f.Keeps store (· ≠ .stackExhausted) id)
    (he : f.Emits) {blockID loc : Nat} {s₀ s : BlockPrefetcher A} (hs : Wf store s)
    (hk : (s.heap loc).req.ptr.id = blockID) (h : RequestedSince s₀ s) :
    (applyToParentsRecursive f s.walkFuel blockID loc s).Holds (fun _ => True) (RequestedSince s₀) :=
  (walk_request hf he hs hk).imp fun _ ht => h.of_within ht.1.2 ht.2

/-- The walk along one ref-nonce's bucket, as `run` starts it. -/
theorem RequestedSince.ptrParents {f : WalkFn A BlockPointer}
    (hf : f.Keeps store (· ≠ .stackExhausted) BlockPointer.id) (he : f.Emits)
    {ptr : BlockPointer} {loc : Nat} {s₀ s : BlockPrefetcher A} (hs : Wf store s)
    (hk : (s.heap loc).req.ptr.id = ptr.id) (h : RequestedSince s₀ s) :
    (applyToPtrParentsRecursive f s.walkFuel ptr loc s).Holds (fun _ => True) (RequestedSince s₀) :=
  (applyToPtrParentsRecursive_holds LoopRel.request FuelSpec.any
    ((hf.mono fun _ _ => trivial).appliesHolds_request he) _ _ _ _ hs hk trivial).imp
    fun _ ht => h.of_within ht.1.2 ht.2

end Walks

/-! ## The functions the walks apply -/

theorem close_emits (s : BlockPrefetcher A) (loc : Nat) :
    (s.close loc).Holds (fun _ => True) fun u => s.out <:+ u.out := by
  unfold BlockPrefetcher.close
  split
  · trivial
  · exact List.suffix_refl _

theorem completePrefetch_emits (n : Int) (solo : Nat → Bool) :
    (completePrefetch n solo : WalkFn A Nat).Emits := by
  intro k loc t
  simp only [completePrefetch]
  split
  · trivial
  · simp only [Except.Holds.pure_bind]
    split
    · exact List.suffix_refl _
    · refine (close_emits _ loc).imp fun u h => (List.IsSuffix.trans ?_ (emitIf_out_suffix _ _ _)).trans h
      show t.out <:+ (((t.modify loc _).deletePrefetch k).clearRescheduleState k).out
      rw [clearRescheduleState_out]
      exact List.suffix_refl _

theorem decrementPrefetch_emits : (decrementPrefetch : WalkFn A Nat).Emits := by
  intro k loc t
  simp only [decrementPrefetch]
  split
  · trivial
  · exact List.suffix_refl _

theorem addSubtreeBlocks_emits (n : Int) : (addSubtreeBlocks n : WalkFn A Nat).Emits :=
  fun _ _ _ => List.suffix_refl _

theorem cancelPrefetch_emits : (cancelPrefetch : WalkFn A BlockPointer).Emits := by
  intro ptr loc t
  simp only [cancelPrefetch]
  split
  · exact List.suffix_refl _
  · simp only [Except.Holds.pure_bind]
    refine Except.Holds.bind (close_emits _ loc) fun u h => ?_
    show t.out <:+ (u.clearRescheduleState ptr.id).out
    rw [clearRescheduleState_out]
    exact h

theorem rescheduleTopBlock_emits (stops : Nat → Bool) :
    (rescheduleTopBlock stops : WalkFn A Nat).Emits := by
  intro k loc t
  simp only [rescheduleTopBlock]
  split
  · exact Except.Holds.bind (Except.Holds.foldlM (fun t' b _ (h : t.out <:+ t'.out) =>
      (cancelPrefetch_emits ⟨k, b.1⟩ loc t').imp fun _ h' => h.trans h') (List.suffix_refl _))
      fun _ h => h
  · simp only [Except.Holds.pure_bind]
    refine Except.Holds.bind (close_emits _ loc) fun t' h => ?_
    split
    · exact h
    · simp only [Except.Holds.pure_bind]
      split <;> exact h

/-- A reschedule walk from a record with no parents applies `rescheduleTopBlock` to it at
    once, which takes its ID out of `prefetches`. -/
theorem rescheduleWalk_top {stops : Nat → Bool} {id loc : Nat} {s : BlockPrefetcher A}
    (hp : (s.heap loc).parents = []) (fuel : Nat) :
    (applyToParentsRecursive (rescheduleTopBlock stops) (fuel + 1) id loc s).Holds
      (fun _ => True) fun t => t.prefetches id = none := by
  have hclose : ((s.deletePrefetch id).close loc).Holds (fun _ => True)
      fun u => u.prefetches id = none := by
    unfold BlockPrefetcher.close
    split
    · trivial
    · simp
  show (visitAllParents _ loc s >>= fun s => rescheduleTopBlock stops id loc s).Holds _ _
  simp only [visitAllParents, hp, List.foldlM_nil, Except.Holds.pure_bind, rescheduleTopBlock,
    List.isEmpty_nil, Bool.not_true, Bool.false_eq_true, if_false]
  refine Except.Holds.bind hclose fun t' h => ?_
  split
  · exact h
  · simp only [Except.Holds.pure_bind]
    split <;> exact h

/-! ## Enumerating children -/

section Enumeration

theorem recordParent_requested {ptr parentPtr : BlockPointer} {isParentNew : Bool} {loc : Nat}
    {s₀ s : BlockPrefetcher A} (h : RequestedSince s₀ s) :
    (recordParent ptr parentPtr isParentNew loc s).Holds (fun _ => True)
      fun r => RequestedSince s₀ r.2 := by
  simp only [recordParent]
  split
  · trivial
  · simp only [Except.Holds.pure_bind]
    split
    · simp only [Except.Holds.pure_iff]
      exact h.modify id
    · exact h

variable [DecidableEq A] (act : ActionOps A)

/-- `request`'s record for a child and the fetch it sends: a record made for the child waits,
    and its block is requested in the same call. -/
theorem RequestedSince.childRequest {s₀ s : BlockPrefetcher A} (h : RequestedSince s₀ s)
    (hs : Wf store s) (priority : Int) (ptr : BlockPointer) (action : A) :
    RequestedSince s₀ (sendChildRequest act priority ptr action (childRecord priority ptr action s).1
      (childRecord priority ptr action s).2.1 (childRecord priority ptr action s).2.2) := by
  unfold childRecord
  split
  · dsimp only [sendChildRequest]
    split
    · exact (h.modify id).emit _
    · exact h
  · obtain ⟨hn₀, new, hnew, hr⟩ := h
    refine ⟨hn₀.trans (by simp [sendChildRequest]), .fetch ptr priority action :: new,
      by simp [sendChildRequest, hnew], fun i l hid hun => ?_⟩
    simp only [sendChildRequest, Bool.not_false, Bool.true_or, if_true, emit_prefetches, emit_heap,
      modify_prefetches, modify_heap, setPrefetch_prefetches, setPrefetch_heap, alloc_prefetches,
      alloc_heap, alloc_fst] at hid hun
    split_ifs at hid with e
    · -- the new record, with the fetch just sent
      cases hid
      exact .inr ⟨hn₀, by simp [Output.fetchesId, e]⟩
    · simp only [(hs.allocated _ _ hid).ne, if_false] at hun
      exact (hr i l hid hun).imp_right fun ⟨hl, hf⟩ => ⟨hl, by simp [hf]⟩

theorem request_requested {priority : Int} {ptr parentPtr : BlockPointer} {isParentNew : Bool}
    {action : A} {idsSeen : List Nat} {s₀ s : BlockPrefetcher A} (hs : Wf store s)
    (h : RequestedSince s₀ s) :
    (request act priority ptr parentPtr isParentNew action idsSeen s).Holds (fun _ => True)
      fun r => RequestedSince s₀ r.2.2 := by
  simp only [request]
  split
  · exact h
  · simp only [Except.Holds.pure_bind]
    have h1 := h.childRequest act hs priority ptr action
    generalize childRecord priority ptr action s = r at h1 ⊢
    obtain ⟨w, loc, s1⟩ := r
    exact Except.Holds.bind (recordParent_requested h1) fun _ hr => hr

theorem requestEach_requested {priority : Int} {parentPtr : BlockPointer} {isParentNew : Bool}
    {action : A} {s₀ : BlockPrefetcher A} :
    ∀ (ptrs : List BlockPointer) (numBlocks : Int) (idsSeen : List Nat) (s : BlockPrefetcher A),
      Wf store s → (∀ p ∈ ptrs, ChildOf store parentPtr.id p.id) → RequestedSince s₀ s →
      (requestEach act priority parentPtr isParentNew action ptrs numBlocks idsSeen s).Holds
        (fun _ => True) fun r => RequestedSince s₀ r.2
  | [], _, _, _, _, _, h => h
  | p :: ps, _, _, _, hs, hc, h =>
    Except.Holds.bind (((request_holds act hs (hc p (.head _))).imp_error fun _ _ => trivial).and
      (request_requested act hs h)) fun ⟨_, _, s'⟩ hr =>
        requestEach_requested ps _ _ s' hr.1.1 (fun q hq => hc q (.tail _ hq)) hr.2

theorem prefetchIndirectBlock_requested {parentPtr : BlockPointer} {iptrs : List BlockPointer}
    {isNew : Bool} {action : A} {basePriority : Int} {s₀ s : BlockPrefetcher A} (hs : Wf store s)
    (hc : ∀ p ∈ iptrs, ChildOf store parentPtr.id p.id) (h : RequestedSince s₀ s) :
    (prefetchIndirectBlock act parentPtr iptrs isNew action basePriority s).Holds (fun _ => True)
      fun r => RequestedSince s₀ r.2.2 :=
  Except.Holds.bind (requestEach_requested act _ _ _ s hs hc h) fun _ h => h

theorem prefetchDirectDirBlock_requested {parentPtr : BlockPointer} {children : List DirEntry}
    {isNew : Bool} {action : A} {basePriority : Int} {s₀ s : BlockPrefetcher A} (hs : Wf store s)
    (hc : ∀ e ∈ children, e.type.isPrefetchable → ChildOf store parentPtr.id e.ptr.id)
    (h : RequestedSince s₀ s) :
    (prefetchDirectDirBlock act parentPtr children isNew action basePriority s).Holds
      (fun _ => True) fun r => RequestedSince s₀ r.2.2 := by
  refine Except.Holds.bind (requestEach_requested act _ _ _ s hs (fun p hp => ?_) h) fun _ h => h
  simp only [List.mem_map, List.mem_filter] at hp
  obtain ⟨e, ⟨he, hpf⟩, rfl⟩ := hp
  exact hc e ((List.perm_insertionSort _ children).subset he) hpf

theorem handlePrefetch_requested {loc : Nat} {isNew : Bool} {action : A} {b : Block}
    {s₀ s : BlockPrefetcher A} (hs : Wf store s)
    (hc : ∀ p ∈ b.childPtrs, ChildOf store (s.heap loc).req.ptr.id p.id) (h : RequestedSince s₀ s) :
    (handlePrefetch act loc isNew action b s).Holds (fun _ => True)
      fun r => RequestedSince s₀ r.2 := by
  unfold handlePrefetch
  cases b with
  | file isInd iptrs =>
    cases isInd
    · exact h
    · exact Except.Holds.bind (prefetchIndirectBlock_requested act hs hc h) fun _ h => h
  | dir isInd iptrs children =>
    cases isInd
    · refine Except.Holds.bind (prefetchDirectDirBlock_requested act hs (fun e he hpf => ?_) h)
        fun _ h => h
      exact hc e.ptr (List.mem_map.2 ⟨e, List.mem_filter.2 ⟨he, hpf⟩, rfl⟩)
    · exact Except.Holds.bind (prefetchIndirectBlock_requested act hs hc h) fun _ h => h
  | common => exact h

end Enumeration

/-! ## The handlers -/

theorem handleCancel_requested {ptr : BlockPointer} {s₀ s : BlockPrefetcher A} (hs : Wf store s)
    (h : RequestedSince s₀ s) : (handleCancel ptr s).Holds (fun _ => True) (RequestedSince s₀) := by
  unfold handleCancel
  split
  · exact h
  · exact RequestedSince.ptrParents cancelPrefetch_keeps cancelPrefetch_emits hs (hs.keyed _ _ ‹_›) h

/-- The placeholder the reschedule case makes for a block with no record leaves the tree in
    the same event. -/
theorem handleReschedule_requested {req : PrefetchRequest A} {stops : Nat → Bool}
    {s₀ s : BlockPrefetcher A} (hs : Wf store s) (h : RequestedSince s₀ s) :
    (handleReschedule req stops s).Holds (fun _ => True) (RequestedSince s₀) := by
  unfold handleReschedule
  cases hn : s.prefetches req.ptr.id with
  | none =>
    have hs0 : Wf store ((s.alloc (newPrefetch 1 false req)).2.setPrefetch req.ptr.id s.next) :=
      (hs.alloc rfl).setPrefetch (by simp) (by simp [newPrefetch]) (by simp [newPrefetch])
    refine ((walk_request (rescheduleTopBlock_keeps stops) (rescheduleTopBlock_emits stops) hs0
      (by simp [newPrefetch])).and (rescheduleWalk_top (by simp [newPrefetch]) _)).imp
      fun t ht => ?_
    obtain ⟨⟨⟨-, hw⟩, ho⟩, htop⟩ := ht
    refine h.mono (by rw [hw.next]; simp) ho fun i l hid hun => ?_
    have hne : i ≠ req.ptr.id := fun e => by rw [e, htop] at hid; cases hid
    have hid0 := hw.prefetches _ _ hid
    simp only [setPrefetch_prefetches, alloc_prefetches, if_neg hne] at hid0
    have hun0 := (hw.triggered l).symm.trans hun
    simp only [setPrefetch_heap, alloc_heap, if_neg (hs.allocated _ _ hid0).ne] at hun0
    exact ⟨hid0, hun0⟩
  | some loc =>
    exact RequestedSince.parents (rescheduleTopBlock_keeps stops) (rescheduleTopBlock_emits stops)
      (hs.modify (hs.keyed _ _ hn).symm rfl rfl) (by simp) (h.modify id)

theorem finishRequest_requested {req : PrefetchRequest A} {solo : Nat → Bool} {waiting : Option Nat}
    {s₀ s : BlockPrefetcher A} (hs : Wf store s) (h : RequestedSince s₀ s)
    (hw : s.prefetches req.ptr.id = waiting) :
    (finishRequest req solo waiting s).Holds (fun _ => True) (RequestedSince s₀) := by
  cases waiting with
  | none =>
    show Except.Holds _ _ (pure _)
    split
    · exact h.emit _
    · exact h
  | some loc =>
    simp only [finishRequest]
    split
    · trivial
    · exact RequestedSince.parents (completePrefetch_keeps _ _) (completePrefetch_emits _ _) hs
        (hs.keyed _ _ hw) h

section Request

variable (act : ActionOps A)

theorem skipRequest_requested {req : PrefetchRequest A} {b : Block} {waiting : Option Nat}
    {s₀ s : BlockPrefetcher A} (hs : Wf store s) (h : RequestedSince s₀ s)
    (hw : s.prefetches req.ptr.id = waiting) :
    (skipRequest act req b waiting s).Holds (fun _ => True) (RequestedSince s₀) := by
  unfold skipRequest
  cases waiting with
  | none => exact h
  | some loc =>
    dsimp only
    split
    · exact RequestedSince.ptrParents cancelPrefetch_keeps cancelPrefetch_emits hs (hs.keyed _ _ hw) h
    · exact h

theorem stopIfNeeded_requested (req : PrefetchRequest A) (space : DiskCacheSpace)
    {s₀ s : BlockPrefetcher A} (h : RequestedSince s₀ s) :
    RequestedSince s₀ (stopIfNeeded act req space s).2 := by
  unfold stopIfNeeded
  split
  · split
    · exact h.emit _
    · exact h
  · exact h

variable [DecidableEq A]

theorem updateRecord_requested {req : PrefetchRequest A} {waiting : Option Nat}
    {s₀ s : BlockPrefetcher A} (hs : Wf store s) (h : RequestedSince s₀ s)
    (hw : s.prefetches req.ptr.id = waiting) :
    (updateRecord act req waiting s).Holds (fun _ => True) fun r => RequestedSince s₀ r.2 := by
  cases waiting with
  | none => exact h.allocSet hs _ rfl
  | some loc =>
    have hk := hs.keyed _ _ hw
    simp only [updateRecord]
    refine Except.Holds.ite (fun _ => ?_) fun _ => ?_
    · split
      · refine Except.Holds.bind (RequestedSince.ptrParents cancelPrefetch_keeps cancelPrefetch_emits
          hs hk h) fun t ht => Except.Holds.ite (fun _ => ?_) fun _ => ht
        simp only [Except.Holds.pure_iff]
        exact ht.modify id
      · refine Except.Holds.ite (fun _ => ?_) fun _ => h
        simp only [Except.Holds.pure_iff]
        exact h.modify id
    · split
      · trivial
      · simp only [Except.Holds.pure_bind]
        refine Except.Holds.bind (RequestedSince.parents decrementPrefetch_keeps decrementPrefetch_emits
          hs hk h) fun t ht => ?_
        simp only [Except.Holds.pure_iff]
        exact ht.modify nofun

/-- Enumeration from a record of the block. -/
theorem prefetchChildren_requested {req : PrefetchRequest A} {solo : Nat → Bool} {isNew : Bool}
    {loc : Nat} {s₀ s : BlockPrefetcher A} (hs : Wf store s) (hr : Released s)
    (h : RequestedSince s₀ s) (hk : (s.heap loc).req.ptr.id = req.ptr.id) (hl : loc < s.next)
    (hn : isNew = true → (s.heap loc).closed = false) :
    (prefetchChildren act req solo isNew (store req.ptr.id) loc s).Holds (fun _ => True)
      (RequestedSince s₀) := by
  unfold prefetchChildren
  refine Except.Holds.bind (((handlePrefetch_holds act hs fun p hp => hk ▸ ⟨p, hp, rfl⟩).imp_error
    fun _ _ => trivial).and (handlePrefetch_requested act hs (fun p hp => hk ▸ ⟨p, hp, rfl⟩) h))
    fun r hr' => ?_
  obtain ⟨result, t⟩ := r
  obtain ⟨⟨ht, hts⟩, htr⟩ := hr'
  have hkt : (t.heap loc).req.ptr.id = req.ptr.id := by rw [hts.ptr loc hl]; exact hk
  dsimp only
  split
  · exact htr
  · split
    · exact RequestedSince.parents (completePrefetch_keeps 0 solo) (completePrefetch_emits 0 solo)
        ht hkt htr
    · split
      · exact htr
      · rw [hr.restore hk hl hn hts]
        exact RequestedSince.parents (addSubtreeBlocks_keeps _) (addSubtreeBlocks_emits _) ht hkt htr

theorem handleRequest_requested {req : PrefetchRequest A} {fetched : Bool}
    {space : DiskCacheSpace} {solo : Nat → Bool} {s₀ s : BlockPrefetcher A} (hs : Wf store s)
    (hr : Released s) (h : RequestedSince s₀ s) :
    (handleRequest act store req fetched space solo s).Holds (fun _ => True) (RequestedSince s₀) := by
  have hc := hs.of_within (Within.clearRescheduleState s req.ptr.id)
  have hrc : Released (s.clearRescheduleState req.ptr.id) := hr.of_eq (by simp) (by simp) (by simp)
  have hqc : RequestedSince s₀ (s.clearRescheduleState req.ptr.id) :=
    h.mono (by simp) (by simp) fun _ _ hid hun => ⟨by simpa using hid, by simpa using hun⟩
  have hw := congrFun (clearRescheduleState_prefetches s req.ptr.id) req.ptr.id
  simp only [handleRequest, pure_bind, bind_pure]
  refine Except.Holds.ite (fun _ => hqc.emit _) fun _ => ?_
  refine Except.Holds.ite (fun _ => hqc) fun _ => ?_
  refine Except.Holds.ite (fun _ => finishRequest_requested hc hqc hw) fun _ => ?_
  refine Except.Holds.ite (fun _ => skipRequest_requested act hc hqc hw) fun _ => ?_
  refine Except.Holds.ite (fun _ => hqc) fun _ => ?_
  obtain ⟨hsw, hsp⟩ := stopIfNeeded_spec act req space (s.clearRescheduleState req.ptr.id)
  have hqs := stopIfNeeded_requested act req space hqc
  refine Except.Holds.ite (fun _ => hqs) fun _ => ?_
  have hw' : (stopIfNeeded act req space (s.clearRescheduleState req.ptr.id)).2.prefetches
      req.ptr.id = s.prefetches req.ptr.id := by rw [hsp]; exact hw
  have hcs := hc.of_within hsw
  refine Except.Holds.bind (((updateRecord_holds act WalkBound.any hcs hw').and
    (updateRecord_released act hcs (stopIfNeeded_released act req space hrc) hw')).and
    (updateRecord_requested act hcs hqs hw')) fun r hr' => ?_
  split
  · exact hr'.2
  · rename_i loc hloc
    obtain ⟨hk, hl, hn⟩ := hr'.1.1.2 loc hloc
    exact prefetchChildren_requested act hr'.1.1.1 hr'.1.2 hr'.2 hk hl
      fun h' => hn (Option.isNone_iff_eq_none.1 h')

theorem handleEvent_requested (e : Event A) {s₀ s : BlockPrefetcher A} (hs : Wf store s)
    (hr : Released s) (h : RequestedSince s₀ s) :
    (handleEvent act store e s).Holds (fun _ => True) (RequestedSince s₀) := by
  cases e with
  | request req fetched space solo => exact handleRequest_requested act hs hr h
  | cancel ptr => exact handleCancel_requested hs h
  | reschedule req stops => exact handleReschedule_requested hs h

end Request

section Runs

variable [DecidableEq A] [Inhabited A] (act : ActionOps A) (store : Nat → Block)

/-- Over every run of events from a reachable state `s`, over any block store, the outputs
    only grow, by `new`, and every record that waits at the end either waited in `s` under the
    same ID, or was made during the run and its block was fetched during the run. Taken from
    the state before a record is made, the fetch of its block is one the prefetcher sent after
    making it, whatever it sent for the same ID before. -/
theorem reachable_runEvents_requested {s s' : BlockPrefetcher A} (h : Reachable act store s)
    {es : List (Event A)} (he : runEvents act store es s = .ok s') :
    ∃ new, s'.out = new ++ s.out ∧ ∀ id loc, s'.prefetches id = some loc →
      (s'.heap loc).subtreeTriggered = false →
      loc < s.next ∧ s.prefetches id = some loc ∧ (s.heap loc).subtreeTriggered = false ∨
        s.next ≤ loc ∧ ∃ ptr priority action, Output.fetch ptr priority action ∈ new ∧ ptr.id = id := by
  suffices hreq : ∀ (es : List (Event A)) (t : BlockPrefetcher A), Reachable act store t →
      RequestedSince s t → runEvents act store es t = .ok s' → RequestedSince s s' by
    obtain ⟨-, new, hnew, hr⟩ := hreq es s h (.refl (reachable_wf act h)) he
    exact ⟨new, hnew, fun id loc hid hun => (hr id loc hid hun).imp_right
      fun ⟨hl, hf⟩ => ⟨hl, exists_fetch_of_any hf⟩⟩
  intro es
  induction es with
  | nil => intro t _ ht he; cases he; exact ht
  | cons e es ih =>
    intro t hr ht he
    simp only [runEvents, List.foldlM_cons] at he
    obtain ⟨t₁, h₁, he⟩ := Except.bind_eq_ok he
    exact ih t₁ (.step e hr h₁) ((handleEvent_requested act e (reachable_wf act hr)
      (reachable_released act store hr) ht).of_ok h₁) he

end Runs

/-- Block 1 of `staleStore` is fetched, which requests its children 2 and 4, and the pointer
    of block 2 is canceled, which removes the records of blocks 2 and 1 and leaves block 4's
    waiting. Fetching block 1 again makes a new record for block 2, though a fetch of block 2
    is among the outputs already, and requests block 2 again. -/
theorem refetchRun_requested :
    ∃ s s' : BlockPrefetcher Unit, Reachable ActionOps.unit staleStore s ∧
      runEvents ActionOps.unit staleStore [fetchEvent 1] s = .ok s' ∧
      s.out.any (Output.fetchesId 2) = true ∧ s'.prefetches 2 = some 4 ∧
      (s'.heap 4).subtreeTriggered = false ∧
      ∃ new, s'.out = new ++ s.out ∧ ∀ id loc, s'.prefetches id = some loc →
        (s'.heap loc).subtreeTriggered = false →
        loc < s.next ∧ s.prefetches id = some loc ∧ (s.heap loc).subtreeTriggered = false ∨
          s.next ≤ loc ∧ ∃ ptr priority action, Output.fetch ptr priority action ∈ new ∧ ptr.id = id := by
  have hr := Reachable.runEvents ActionOps.unit staleStore .init
    (show runEvents _ _ [fetchEvent 1, .cancel ⟨2, 0⟩] _ = _ from rfl)
  exact ⟨_, _, hr, rfl, rfl, rfl, rfl, reachable_runEvents_requested ActionOps.unit staleStore hr
    (show runEvents _ _ [fetchEvent 1] _ = _ from rfl)⟩

end KbfsPrefetcher
