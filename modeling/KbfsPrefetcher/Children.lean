import KbfsPrefetcher.Termination
import Mathlib.Algebra.Ring.Int.Defs

/-
  What `handlePrefetch` does with the children of a fetched block.

  Model: `Block.requestOrder` lists the pointers `handlePrefetch` hands to `request`, in its
  order (a direct directory block's entries sorted by size); it is a permutation of the
  block's children `Block.childPtrs`. `firstOfEachID` keeps the pointers `request` goes on
  with past its `idsSeen` check. `hasEdge s parentPtr q` says the record of `q`'s ID has
  `parentPtr` in its bucket for `q`'s ref-nonce; `countOf` is that record's count. A state is
  `Unshared` when its records are allocated and no two IDs share one, as in every well-formed
  (so every reachable) state (`Wf.unshared`).

  Proved: `handlePrefetch_children`. On an unshared state where the handled record is in
  `prefetches`, handling any file or directory block is requesting once, in order, the first
  pointer of each child ID; it ends normally, it reports a tail exactly when no child was
  requested, each requested child ends with a record listing the parent's pointer under the
  child's ref-nonce, and `numBlocks` is the sum of the counts of the requested children whose
  edge to the parent was missing before (every one when the record is new). Every reachable
  state is unshared, so this holds of every state `run` reaches
  (`staleStore_handlePrefetch_children`).

  Each function `request` calls has one spec lemma (`childRecord_child`,
  `sendChildRequest_frame`, `recordParent_spec`); the two that rewrite only the child's
  record say so with `WritesAt`. `request_child` composes them, and `requestEach_children`
  is its induction over the pointers; a change to one of these functions touches its own
  lemma only.
-/

namespace KbfsPrefetcher

open BlockPrefetcher

variable {A : Type}

/-! ## The children in request order -/

/-- The pointers `handlePrefetch` hands to `request` for a block, in its order: the indirect
    pointers of an indirect block; the entries of a direct directory block sorted by size,
    symbolic links and unknown types left out. -/
def Block.requestOrder : Block → List BlockPointer
  | .file true iptrs => iptrs
  | .dir true iptrs _ => iptrs
  | .dir false _ children =>
    ((children.insertionSort fun a b => a.size ≤ b.size).filter fun e => e.type.isPrefetchable).map
      (·.ptr)
  | _ => []

theorem Block.requestOrder_perm (b : Block) : b.requestOrder.Perm b.childPtrs := by
  cases b with
  | file isInd iptrs => cases isInd <;> rfl
  | dir isInd iptrs children =>
    cases isInd
    · exact ((List.perm_insertionSort _ children).filter _).map _
    · rfl
  | common => rfl

/-- The pointers of `ptrs` whose ID neither `seen` nor an earlier pointer has, in order: those
    `request` goes on with past its `idsSeen` check. -/
def firstOfEachID (seen : List Nat) : List BlockPointer → List BlockPointer
  | [] => []
  | q :: qs => if q.id ∈ seen then firstOfEachID seen qs else q :: firstOfEachID (q.id :: seen) qs

theorem id_not_mem_of_firstOfEachID {seen : List Nat} {ptrs : List BlockPointer} {q : BlockPointer}
    (h : q ∈ firstOfEachID seen ptrs) : q.id ∉ seen := by
  induction ptrs generalizing seen with
  | nil => cases h
  | cons p ps ih =>
    unfold firstOfEachID at h
    split at h
    · exact ih h
    · rcases List.mem_cons.1 h with rfl | h
      · assumption
      · exact fun hq => ih h (.tail _ hq)

theorem firstOfEachID_ids_nodup (seen : List Nat) (ptrs : List BlockPointer) :
    ((firstOfEachID seen ptrs).map BlockPointer.id).Nodup := by
  induction ptrs generalizing seen with
  | nil => exact .nil
  | cons p ps ih =>
    unfold firstOfEachID
    split
    · exact ih seen
    · refine List.nodup_cons.2 ⟨fun hp => ?_, ih _⟩
      obtain ⟨q, hq, e⟩ := List.mem_map.1 hp
      exact id_not_mem_of_firstOfEachID hq (e ▸ .head _)

theorem firstOfEachID_isEmpty (ptrs : List BlockPointer) :
    (firstOfEachID [] ptrs).isEmpty = ptrs.isEmpty := by
  cases ptrs <;> simp [firstOfEachID]

/-! ## Edges and counts of a child -/

/-- Whether the record of `q`'s ID has `parentPtr` in its bucket for `q`'s ref-nonce. -/
def hasEdge (s : BlockPrefetcher A) (parentPtr q : BlockPointer) : Bool :=
  match s.prefetches q.id with
  | none => false
  | some l => decide (parentPtr ∈ bucketOf q.refNonce (s.heap l).parents)

/-- The `subtreeBlockCount` of the record of `q`'s ID; 0 without one. -/
def countOf (s : BlockPrefetcher A) (q : BlockPointer) : Int :=
  match s.prefetches q.id with
  | none => 0
  | some l => (s.heap l).subtreeBlockCount

/-- Every record of `s` is allocated, and no two IDs share one. -/
structure Unshared (s : BlockPrefetcher A) : Prop where
  allocated : ∀ i l, s.prefetches i = some l → l < s.next
  injective : ∀ i j l, s.prefetches i = some l → s.prefetches j = some l → i = j

theorem Wf.unshared {store : Nat → Block} {s : BlockPrefetcher A} (hs : Wf store s) : Unshared s :=
  ⟨hs.allocated, fun i j l hi hj => (hs.keyed i l hi).symm.trans (hs.keyed j l hj)⟩

/-- `u` holds the record of the ID `j` as `t` does: at the same location, unchanged. -/
def Keeps (t u : BlockPrefetcher A) (j : Nat) : Prop :=
  u.prefetches j = t.prefetches j ∧ ∀ l, t.prefetches j = some l → u.heap l = t.heap l

theorem Keeps.trans {t u v : BlockPrefetcher A} {j : Nat} (h₁ : Keeps t u j) (h₂ : Keeps u v j) :
    Keeps t v j :=
  ⟨h₂.1.trans h₁.1, fun l hl => (h₂.2 l (h₁.1.trans hl)).trans (h₁.2 l hl)⟩

theorem Keeps.hasEdge {t u : BlockPrefetcher A} {q : BlockPointer} (h : Keeps t u q.id)
    (parentPtr : BlockPointer) : hasEdge u parentPtr q = hasEdge t parentPtr q := by
  unfold KbfsPrefetcher.hasEdge
  rw [h.1]
  split
  · rfl
  · rename_i l hl
    rw [h.2 l hl]

theorem Keeps.countOf {t u : BlockPrefetcher A} {q : BlockPointer} (h : Keeps t u q.id) :
    countOf u q = countOf t q := by
  unfold KbfsPrefetcher.countOf
  rw [h.1]
  split
  · rfl
  · rename_i l hl
    rw [h.2 l hl]

theorem Keeps.of_heap {t u : BlockPrefetcher A} {l j : Nat} (hp : u.prefetches j = t.prefetches j)
    (hh : ∀ l', l' ≠ l → u.heap l' = t.heap l') (hl : ∀ l', t.prefetches j = some l' → l' ≠ l) :
    Keeps t u j :=
  ⟨hp, fun l' h => hh l' (hl l' h)⟩

/-- `t'` is `t` with at most the record at `l` rewritten. -/
structure WritesAt (t t' : BlockPrefetcher A) (l : Nat) : Prop where
  prefetches : t'.prefetches = t.prefetches
  next : t'.next = t.next
  heap : ∀ l', l' ≠ l → t'.heap l' = t.heap l'

namespace WritesAt

variable {t t' t'' : BlockPrefetcher A} {l : Nat}

theorem refl (t : BlockPrefetcher A) (l : Nat) : WritesAt t t l := ⟨rfl, rfl, fun _ _ => rfl⟩

theorem modify (t : BlockPrefetcher A) (l : Nat) (g : Prefetch A → Prefetch A) :
    WritesAt t (t.modify l g) l :=
  ⟨rfl, rfl, fun l' hl' => by simp [hl']⟩

theorem trans (h₁ : WritesAt t t' l) (h₂ : WritesAt t' t'' l) : WritesAt t t'' l :=
  ⟨h₂.prefetches.trans h₁.prefetches, h₂.next.trans h₁.next, fun l' hl' => (h₂.heap l' hl').trans (h₁.heap l' hl')⟩

theorem unshared (h : WritesAt t t' l) (hu : Unshared t) : Unshared t' :=
  ⟨h.prefetches ▸ h.next ▸ hu.allocated, h.prefetches ▸ hu.injective⟩

/-- Every ID but the one whose record is at `l` keeps its record. -/
theorem keeps (h : WritesAt t t' l) (hu : Unshared t) {i j : Nat} (hi : t.prefetches i = some l)
    (hj : j ≠ i) : Keeps t t' j :=
  Keeps.of_heap (congrFun h.prefetches j) h.heap fun l' hl' (e : l' = l) => hj (hu.injective j i l (e ▸ hl') hi)

end WritesAt

theorem mem_bucketOf_addParent (n : Nat) (p : BlockPointer) (ps : Parents) :
    p ∈ bucketOf n (addParent n p ps) := by
  induction ps with
  | nil => simp [addParent, bucketOf]
  | cons b ps ih =>
    obtain ⟨m, l⟩ := b
    unfold addParent
    by_cases hm : m = n
    · simp only [if_pos hm, bucketOf]
      split
      · assumption
      · exact List.mem_append_right _ (.head _)
    · simp only [if_neg hm, bucketOf]
      exact ih

/-! ## One request -/

/-- `request`'s lookup or creation of the child's record keeps every other ID's record and
    every edge. -/
theorem childRecord_child {t : BlockPrefetcher A} (hu : Unshared t) (priority : Int)
    (q : BlockPointer) (action : A) :
    let r := childRecord priority q action t
    Unshared r.2.2 ∧ r.2.2.prefetches q.id = some r.2.1 ∧ (∀ j ≠ q.id, Keeps t r.2.2 j) ∧
      ∀ parentPtr, hasEdge r.2.2 parentPtr q = hasEdge t parentPtr q := by
  unfold childRecord
  cases h : t.prefetches q.id with
  | some l => exact ⟨hu, h, fun _ _ => ⟨rfl, fun _ _ => rfl⟩, fun _ => rfl⟩
  | none =>
    dsimp only
    refine ⟨⟨fun i l hi => ?_, fun i j l hi hj => ?_⟩, by simp, fun j hj => ?_, fun p => ?_⟩
    · simp only [setPrefetch_prefetches, alloc_prefetches, alloc_next] at hi ⊢
      split at hi
      · cases hi
        exact Nat.lt_succ_self _
      · exact Nat.lt_succ_of_lt (hu.allocated i l hi)
    · simp only [setPrefetch_prefetches, alloc_prefetches] at hi hj
      split at hi <;> split at hj
      · subst_vars; rfl
      · cases hi; exact absurd (hu.allocated j _ hj) (Nat.lt_irrefl _)
      · cases hj; exact absurd (hu.allocated i _ hi) (Nat.lt_irrefl _)
      · exact hu.injective i j l hi hj
    · exact Keeps.of_heap (by simp [hj]) (fun l' hl' => by simp [hl'])
        fun l' hl' e => Nat.lt_irrefl _ (e ▸ hu.allocated j l' hl')
    · simp [hasEdge, h, newPrefetch, bucketOf]

/-- `recordParent` with the parent in `prefetches` ends normally, the record at `loc` listing
    `parentPtr` under `ptr`'s ref-nonce; the count is the record's when the edge was missing
    or the parent is new. -/
theorem recordParent_spec (ptr parentPtr : BlockPointer) (isNew : Bool) (loc : Nat)
    {t : BlockPrefetcher A} {v : Nat} (hv : t.prefetches parentPtr.id = some v) :
    ∃ t', recordParent ptr parentPtr isNew loc t =
        .ok (if (decide (parentPtr ∉ bucketOf ptr.refNonce (t.heap loc).parents) || isNew) = true
          then (t.heap loc).subtreeBlockCount else 0, t') ∧
      WritesAt t t' loc ∧ (t'.heap loc).subtreeBlockCount = (t.heap loc).subtreeBlockCount ∧
      parentPtr ∈ bucketOf ptr.refNonce (t'.heap loc).parents := by
  simp only [recordParent, hv, Option.isNone_some, Bool.false_eq_true, if_false]
  by_cases hc : (decide (parentPtr ∉ bucketOf ptr.refNonce (t.heap loc).parents) || isNew) = true
  · simp only [if_pos hc]
    exact ⟨_, rfl, WritesAt.modify t loc _, by simp, by simp [mem_bucketOf_addParent]⟩
  · simp only [if_neg hc]
    simp only [Bool.or_eq_true, decide_eq_true_eq, not_or, not_not] at hc
    exact ⟨t, rfl, .refl t loc, rfl, hc.1⟩

variable [DecidableEq A] (act : ActionOps A)

/-- `sendChildRequest` rewrites at most the child's record, and neither its parents nor its
    count. -/
theorem sendChildRequest_frame (priority : Int) (q : BlockPointer) (action : A) (w : Bool)
    (l : Nat) (t : BlockPrefetcher A) :
    let t' := sendChildRequest act priority q action w l t
    WritesAt t t' l ∧ (t'.heap l).parents = (t.heap l).parents ∧
      (t'.heap l).subtreeBlockCount = (t.heap l).subtreeBlockCount := by
  dsimp only [sendChildRequest]
  split
  · exact ⟨⟨rfl, rfl, fun l' hl' => by simp [hl']⟩, by simp, by simp⟩
  · exact ⟨.refl t l, rfl, rfl⟩

/-- One `request` for a pointer whose ID `idsSeen` does not hold, from an unshared state where
    the parent has a record: the child ends with a record listing `parentPtr` under its
    ref-nonce, the parent keeps a record, every other ID's record is kept, and the count
    returned is the child's when the edge was missing or the parent is new. -/
theorem request_child {t : BlockPrefetcher A} (hu : Unshared t) {parentPtr q : BlockPointer}
    (hp : (t.prefetches parentPtr.id).isSome) {seen : List Nat} (hq : q.id ∉ seen)
    (priority : Int) (isNew : Bool) (action : A) :
    ∃ t', request act priority q parentPtr isNew action seen t =
        .ok (if isNew || !hasEdge t parentPtr q then countOf t' q else 0, q.id :: seen, t') ∧
      Unshared t' ∧ hasEdge t' parentPtr q = true ∧ (t'.prefetches parentPtr.id).isSome ∧
      ∀ j ≠ q.id, Keeps t t' j := by
  simp only [request, if_neg hq]
  obtain ⟨hu₁, hl₁, hk₁, he₁⟩ := childRecord_child hu priority q action
  generalize childRecord priority q action t = r at hu₁ hl₁ hk₁ he₁ ⊢
  obtain ⟨w, l, t₁⟩ := r
  obtain ⟨hw₂, hpa₂, hc₂⟩ := sendChildRequest_frame act priority q action w l t₁
  generalize sendChildRequest act priority q action w l t₁ = t₂ at hw₂ hpa₂ hc₂ ⊢
  dsimp only at hu₁ hl₁ hk₁ he₁ ⊢
  obtain ⟨v, hv⟩ : ∃ v, t₂.prefetches parentPtr.id = some v := by
    rw [hw₂.prefetches]
    by_cases e : parentPtr.id = q.id
    · exact ⟨l, e ▸ hl₁⟩
    · rw [(hk₁ _ e).1]
      exact Option.isSome_iff_exists.1 hp
  obtain ⟨t₃, h₃, hw₃, hc₃, he₃⟩ := recordParent_spec q parentPtr isNew l hv
  have hw := hw₂.trans hw₃
  have hl₃ : t₃.prefetches q.id = some l := hw.prefetches ▸ hl₁
  have hcond : (decide (parentPtr ∉ bucketOf q.refNonce (t₂.heap l).parents) || isNew) =
      (isNew || !hasEdge t parentPtr q) := by
    rw [← he₁ parentPtr, hasEdge, hl₁, hpa₂, decide_not, Bool.or_comm]
  refine ⟨t₃, ?_, hw.unshared hu₁, by simp [hasEdge, hl₃, he₃], by rw [hw₃.prefetches, hv]; rfl,
    fun j hj => (hk₁ j hj).trans (hw.keeps hu₁ hl₁ hj)⟩
  rw [h₃, hcond]
  simp only [countOf, hl₃, hc₃, hc₂]
  rfl

theorem request_ids {priority : Int} {q parentPtr : BlockPointer} {isNew : Bool} {action : A}
    {seen : List Nat} {t : BlockPrefetcher A} {r : Int × List Nat × BlockPrefetcher A}
    (hq : q.id ∉ seen) (h : request act priority q parentPtr isNew action seen t = .ok r) :
    r.2.1 = q.id :: seen := by
  simp only [request, if_neg hq] at h
  generalize childRecord priority q action t = c at h
  obtain ⟨w, l, t₁⟩ := c
  dsimp only at h
  generalize recordParent q parentPtr isNew l (sendChildRequest act priority q action w l t₁) = x at h
  cases x with
  | error => cases h
  | ok x => cases h; rfl

/-! ## The loop over a block's pointers -/

theorem requestEach_seen {priority : Int} {parentPtr : BlockPointer} {isNew : Bool} {action : A}
    {q : BlockPointer} {seen : List Nat} (hq : q.id ∈ seen) (qs : List BlockPointer) (acc : Int)
    (t : BlockPrefetcher A) :
    requestEach act priority parentPtr isNew action (q :: qs) acc seen t =
      requestEach act priority parentPtr isNew action qs acc seen t := by
  simp [requestEach, request, hq]

/-- `idsSeen` at work: the loop over `ptrs` is the loop over the first pointer of each ID. -/
theorem requestEach_firstOfEachID (priority : Int) (parentPtr : BlockPointer) (isNew : Bool)
    (action : A) : ∀ (ptrs : List BlockPointer) (acc : Int) (seen : List Nat) (t : BlockPrefetcher A),
      requestEach act priority parentPtr isNew action ptrs acc seen t =
        requestEach act priority parentPtr isNew action (firstOfEachID seen ptrs) acc seen t
  | [], _, _, _ => rfl
  | q :: qs, acc, seen, t => by
    by_cases hq : q.id ∈ seen
    · rw [requestEach_seen act hq, firstOfEachID, if_pos hq]
      exact requestEach_firstOfEachID priority parentPtr isNew action qs acc seen t
    · simp only [firstOfEachID, if_neg hq, requestEach]
      cases hr : request act priority q parentPtr isNew action seen t with
      | error => rfl
      | ok r =>
        obtain ⟨n, ids, t'⟩ := r
        obtain rfl : ids = q.id :: seen := request_ids act hq hr
        exact requestEach_firstOfEachID priority parentPtr isNew action qs _ _ t'

/-- The loop from an unshared state where the parent has a record: every first pointer of an ID
    ends with the edge to `parentPtr`, IDs the loop does not request keep their records, and
    the sum grows by the count of each requested child whose edge was missing or whose parent
    is new. -/
theorem requestEach_children {parentPtr : BlockPointer} (priority : Int) (isNew : Bool) (action : A) :
    ∀ (ptrs : List BlockPointer) (acc : Int) (seen : List Nat) (t : BlockPrefetcher A), Unshared t →
      (t.prefetches parentPtr.id).isSome → ∃ u,
        requestEach act priority parentPtr isNew action ptrs acc seen t =
          .ok (acc + (((firstOfEachID seen ptrs).filter fun q =>
            isNew || !hasEdge t parentPtr q).map (countOf u)).sum, u) ∧
        Unshared u ∧ (∀ q ∈ firstOfEachID seen ptrs, hasEdge u parentPtr q = true) ∧
        ∀ j, j ∉ (firstOfEachID seen ptrs).map BlockPointer.id → Keeps t u j
  | [], acc, _, t, hu, _ =>
    ⟨t, by simp [requestEach, firstOfEachID]; rfl, hu, fun _ h => (nomatch h),
      fun _ _ => ⟨rfl, fun _ _ => rfl⟩⟩
  | q :: qs, acc, seen, t, hu, hp => by
    by_cases hq : q.id ∈ seen
    · obtain ⟨u, h, hu', he, hk⟩ := requestEach_children priority isNew action qs acc seen t hu hp
      rw [requestEach_seen act hq, firstOfEachID, if_pos hq]
      exact ⟨u, h, hu', he, hk⟩
    · obtain ⟨t₁, h₁, hu₁, he₁, hp₁, hk₁⟩ := request_child act hu hp hq priority isNew action
      obtain ⟨u, h, hu', he, hk⟩ := requestEach_children priority isNew action qs
        (acc + if isNew || !hasEdge t parentPtr q then countOf t₁ q else 0) (q.id :: seen) t₁ hu₁ hp₁
      have hfresh : ∀ q' ∈ firstOfEachID (q.id :: seen) qs, q'.id ≠ q.id := fun q' hq' e =>
        id_not_mem_of_firstOfEachID hq' (e ▸ .head _)
      have hqu : Keeps t₁ u q.id := hk q.id fun hm => by
        obtain ⟨q', hq', e⟩ := List.mem_map.1 hm
        exact hfresh q' hq' e
      simp only [firstOfEachID, if_neg hq]
      refine ⟨u, ?_, hu', fun q' hq' => ?_, fun j hj => ?_⟩
      · have hf : (firstOfEachID (q.id :: seen) qs).filter (fun q' => isNew || !hasEdge t₁ parentPtr q') =
            (firstOfEachID (q.id :: seen) qs).filter (fun q' => isNew || !hasEdge t parentPtr q') :=
          List.filter_congr fun q' hq' => by rw [(hk₁ _ (hfresh q' hq')).hasEdge]
        show (request act priority q parentPtr isNew action seen t >>= fun r =>
          requestEach act priority parentPtr isNew action qs (acc + r.1) r.2.1 r.2.2) = _
        rw [h₁]
        show requestEach act priority parentPtr isNew action qs _ (q.id :: seen) t₁ = _
        rw [h, hf, ← hqu.countOf]
        cases hc : (isNew || !hasEdge t parentPtr q) <;> simp [List.filter_cons, hc, Int.add_assoc]
      · rcases List.mem_cons.1 hq' with rfl | hq'
        · exact (hqu.hasEdge parentPtr).trans he₁
        · exact he q' hq'
      · simp only [List.map_cons, List.mem_cons, not_or] at hj
        exact (hk₁ j hj.1).trans (hk j hj.2)

theorem isEmpty_map_eq {α β : Type} (f : α → β) (l : List α) : (l.map f).isEmpty = l.isEmpty := by
  cases l <;> rfl

/-- `handlePrefetch` on a file or directory block is the loop over its pointers in request
    order, with the child action and the priority one below the record's. -/
theorem handlePrefetch_eq (loc : Nat) (isNew : Bool) (action : A) {b : Block} (hb : b ≠ .common)
    (s : BlockPrefetcher A) :
    handlePrefetch act loc isNew action b s =
      (fun r => (some (r.1, b.requestOrder.isEmpty), r.2)) <$>
        requestEach act (calculatePriority (s.heap loc).req.priority (act.childAction action b))
          (s.heap loc).req.ptr isNew (act.childAction action b) b.requestOrder 0 [] s := by
  rw [map_eq_pure_bind]
  cases b with
  | file isInd iptrs =>
    cases isInd
    · rfl
    · simp only [handlePrefetch, prefetchIndirectFileBlock, prefetchIndirectBlock, if_true,
        bind_assoc, pure_bind, Block.requestOrder]
  | dir isInd iptrs children =>
    cases isInd
    · simp only [handlePrefetch, prefetchDirectDirBlock, Bool.false_eq_true, if_false, bind_assoc,
        pure_bind, Block.requestOrder, isEmpty_map_eq]
    · simp only [handlePrefetch, prefetchIndirectDirBlock, prefetchIndirectBlock, if_true,
        bind_assoc, pure_bind, Block.requestOrder]
  | common => exact absurd rfl hb

/-- On an unshared state where the record at `loc` is in `prefetches`, handling a file or
    directory block `b` is requesting, once each and in request order (a permutation of the
    block's children), the first pointer of each child ID, and it ends normally. It reports a
    tail exactly when it requested no child; each requested child ends with a record that lists
    the handled record's pointer in its bucket for the child's ref-nonce; and `numBlocks` is the
    sum of the counts of the requested children whose edge to that pointer was missing before,
    or of all of them when the record is new. -/
theorem handlePrefetch_children {s : BlockPrefetcher A} {loc : Nat}
    (hpre : s.prefetches (s.heap loc).req.ptr.id = some loc) (hu : Unshared s)
    (isPrefetchNew : Bool) (action : A) {b : Block} (hb : b ≠ .common) :
    b.requestOrder.Perm b.childPtrs ∧ ((firstOfEachID [] b.requestOrder).map BlockPointer.id).Nodup ∧
    handlePrefetch act loc isPrefetchNew action b s =
      (fun r => (some (r.1, (firstOfEachID [] b.requestOrder).isEmpty), r.2)) <$>
        requestEach act (calculatePriority (s.heap loc).req.priority (act.childAction action b))
          (s.heap loc).req.ptr isPrefetchNew (act.childAction action b)
          (firstOfEachID [] b.requestOrder) 0 [] s ∧
    ∃ numBlocks u, handlePrefetch act loc isPrefetchNew action b s =
        .ok (some (numBlocks, (firstOfEachID [] b.requestOrder).isEmpty), u) ∧
      (∀ q ∈ firstOfEachID [] b.requestOrder, hasEdge u (s.heap loc).req.ptr q = true) ∧
      numBlocks = (((firstOfEachID [] b.requestOrder).filter fun q =>
        isPrefetchNew || !hasEdge s (s.heap loc).req.ptr q).map (countOf u)).sum := by
  have heq := handlePrefetch_eq act loc isPrefetchNew action hb s
  rw [requestEach_firstOfEachID, ← firstOfEachID_isEmpty] at heq
  have hp : (s.prefetches (s.heap loc).req.ptr.id).isSome := by rw [hpre]; rfl
  obtain ⟨u, h, -, he, -⟩ := requestEach_children act
    (calculatePriority (s.heap loc).req.priority (act.childAction action b)) isPrefetchNew
    (act.childAction action b) b.requestOrder 0 [] s hu hp
  rw [requestEach_firstOfEachID] at h
  refine ⟨b.requestOrder_perm, firstOfEachID_ids_nodup _ _, heq, _, u, ?_, he, rfl⟩
  rw [heq, h, Int.zero_add]
  rfl

/-! ## A reachable state -/

/-- A block listing block 3 under two ref-nonces, then block 5. -/
def twoNonceBlock : Block := .file true [⟨3, 0⟩, ⟨3, 1⟩, ⟨5, 0⟩]

/-- After block 2 is prefetched over `staleStore` (its record at 0, block 3's at 1), handling
    `twoNonceBlock` from block 2's record requests block 3 once, through ref-nonce 0, and
    block 5. -/
theorem staleStore_handlePrefetch_children :
    ∃ s : BlockPrefetcher Unit, Reachable ActionOps.unit staleStore s ∧
      s.prefetches (s.heap 0).req.ptr.id = some 0 ∧ Unshared s ∧ twoNonceBlock ≠ .common ∧
      (twoNonceBlock.requestOrder.Perm twoNonceBlock.childPtrs ∧
      ((firstOfEachID [] twoNonceBlock.requestOrder).map BlockPointer.id).Nodup ∧
      handlePrefetch ActionOps.unit 0 false () twoNonceBlock s =
        (fun r => (some (r.1, (firstOfEachID [] twoNonceBlock.requestOrder).isEmpty), r.2)) <$>
          requestEach ActionOps.unit
            (calculatePriority (s.heap 0).req.priority (ActionOps.unit.childAction () twoNonceBlock))
            (s.heap 0).req.ptr false (ActionOps.unit.childAction () twoNonceBlock)
            (firstOfEachID [] twoNonceBlock.requestOrder) 0 [] s ∧
      ∃ numBlocks u, handlePrefetch ActionOps.unit 0 false () twoNonceBlock s =
          .ok (some (numBlocks, (firstOfEachID [] twoNonceBlock.requestOrder).isEmpty), u) ∧
        (∀ q ∈ firstOfEachID [] twoNonceBlock.requestOrder, hasEdge u (s.heap 0).req.ptr q = true) ∧
        numBlocks = (((firstOfEachID [] twoNonceBlock.requestOrder).filter fun q =>
          false || !hasEdge s (s.heap 0).req.ptr q).map (countOf u)).sum) := by
  have hr := Reachable.runEvents ActionOps.unit staleStore .init
    (show runEvents _ _ [fetchEvent 2] _ = _ from rfl)
  exact ⟨_, hr, rfl, (reachable_wf _ hr).unshared, nofun,
    handlePrefetch_children ActionOps.unit rfl (reachable_wf _ hr).unshared false () nofun⟩

end KbfsPrefetcher
