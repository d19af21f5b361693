import KbfsPrefetcher.StaleParents
import Mathlib.Data.List.Chain
import Mathlib.Data.List.Perm.Subperm

/-
  The parent walks never run out of their depth bound on a reachable state.

  A chain of parent edges from any record passes, after its first record, only through
  stored records, and on a well-formed state over an acyclic store it never repeats one
  (`Wf.parentEdge_acyclic`). Stored records lie below `next`, so every chain has at most
  `next` edges (`Wf.chain_length_le`). A walk given the depth bound `n + 1` at a record
  all of whose chains are shorter than `n + 1` calls itself at a parent with bound `n`,
  from a state within its start, where every chain from that parent is shorter than `n`
  (`depthBelow_fuelSpec`). `run` passes `next + 1`, so no walk it starts, and no event
  it handles, ends in `Abort.stackExhausted`: Go's recursion terminates.
-/

namespace KbfsPrefetcher

open BlockPrefetcher

variable {A : Type} {store : Nat → Block}

/-- Every chain of parent edges from `loc` has fewer than `n` edges. -/
def DepthBelow (n loc : Nat) (s : BlockPrefetcher A) : Prop :=
  ∀ path, List.Chain (ParentEdge s) loc path → path.length < n

theorem ParentEdge.stored {s : BlockPrefetcher A} {c p : Nat} (h : ParentEdge s c p) :
    ∃ id, s.prefetches id = some p :=
  let ⟨q, _, hp⟩ := h
  ⟨q.id, hp⟩

/-- After its first record a chain of parent edges visits stored records only. -/
theorem chain_stored {s : BlockPrefetcher A} {loc : Nat} {path : List Nat}
    (h : List.Chain (ParentEdge s) loc path) : ∀ p ∈ path, ∃ id, s.prefetches id = some p := by
  induction h with
  | nil => exact fun _ hp => nomatch hp
  | cons he _ ih =>
    intro p hp
    rcases List.mem_cons.1 hp with rfl | hp
    · exact he.stored
    · exact ih p hp

/-- When the parent-edge graph has no cycle and every stored record lies below `next`, a
    chain of parent edges has at most `next` edges: it repeats no record and visits stored
    ones only. -/
theorem chain_length_le_next {s : BlockPrefetcher A}
    (hac : ∀ l, ¬Relation.TransGen (ParentEdge s) l l)
    (halloc : ∀ id loc, s.prefetches id = some loc → loc < s.next)
    {loc : Nat} {path : List Nat} (h : List.Chain (ParentEdge s) loc path) :
    path.length ≤ s.next := by
  have hpw : List.Pairwise (Relation.TransGen (ParentEdge s)) (loc :: path) :=
    List.chain_iff_pairwise.1 (h.imp fun _ _ => Relation.TransGen.single)
  have hnd : path.Nodup := (List.pairwise_cons.1 hpw).2.imp
    fun {a b} (hab : Relation.TransGen (ParentEdge s) a b) (heq : a = b) => hac b (heq ▸ hab)
  have hsub : path ⊆ List.range s.next := fun p hp =>
    let ⟨id, hid⟩ := chain_stored h p hp
    List.mem_range.2 (halloc id p hid)
  simpa using (hnd.subperm hsub).length_le

/-- On a well-formed state over an acyclic store a chain of parent edges has at most
    `next` edges. -/
theorem Wf.chain_length_le {s : BlockPrefetcher A} (hs : Wf store s) (hst : StoreAcyclic store)
    {loc : Nat} {path : List Nat} (h : List.Chain (ParentEdge s) loc path) :
    path.length ≤ s.next :=
  chain_length_le_next (hs.parentEdge_acyclic hst) hs.allocated h

/-- `DepthBelow` is a depth argument for both walks: with it a walk never runs out, whatever
    failures `E` it admits. -/
theorem depthBelow_fuelSpec {E : Abort → Prop} : FuelSpec store E (@DepthBelow A) where
  zero _ _ h := absurd (h [] .nil) (Nat.not_lt_zero 0)
  succ _ _ _ _ q _ _ hen hq hw hp path hpath :=
    Nat.succ_lt_succ_iff.1 (hen (_ :: path) (.cons ⟨q, hq, hw.prefetches _ _ hp⟩
      (hpath.imp fun _ _ => ParentEdge.of_within hw)))

/-- Over an acyclic store the bound `run` passes is a depth argument from every
    well-formed state. -/
theorem WalkBound.depth (hst : StoreAcyclic store) :
    WalkBound store (· ≠ .stackExhausted) (@DepthBelow A) :=
  ⟨depthBelow_fuelSpec, fun _ _ hs _ h => Nat.lt_succ_of_le (hs.chain_length_le hst h),
    fun _ h => h⟩

section Reachable

variable [Inhabited A] [DecidableEq A] {act : ActionOps A}

/-- On every reachable state over an acyclic store the parent-edge graph has no cycle, and
    both walks, started from any record with any function that keeps the state within
    its start (as the five `run` hands them do), never run out of the bound `run` gives
    them: the recursion terminates. -/
theorem reachable_walks_terminate (hst : StoreAcyclic store) {s : BlockPrefetcher A}
    (h : Reachable act store s) :
    (∀ loc, ¬Relation.TransGen (ParentEdge s) loc loc) ∧
    (∀ f : WalkFn A Nat, f.Keeps store (· ≠ .stackExhausted) id → ∀ loc,
      applyToParentsRecursive f s.walkFuel (s.heap loc).req.ptr.id loc s ≠ .error .stackExhausted) ∧
    (∀ f : WalkFn A BlockPointer, f.Keeps store (· ≠ .stackExhausted) BlockPointer.id →
      ∀ ptr loc, (s.heap loc).req.ptr.id = ptr.id →
        applyToPtrParentsRecursive f s.walkFuel ptr loc s ≠ .error .stackExhausted) := by
  have hs := reachable_wf act h
  exact ⟨hs.parentEdge_acyclic hst,
    fun _ hf _ => ((WalkBound.depth hst).parents hf hs rfl).ne_error (· rfl),
    fun _ hf _ _ hk => ((WalkBound.depth hst).ptrParents hf hs hk).ne_error (· rfl)⟩

/-- The state `staleTrace` reaches, where block 3's record hangs below block 2's new one by
    a pointer it kept from the first tree, has no cycle of parent edges, and no walk from
    any of its records runs out of depth. -/
theorem staleTrace_walks_terminate :
    ∃ s, Reachable ActionOps.unit staleStore s ∧ s.prefetches 2 = some 3 ∧
      (∀ loc, ¬Relation.TransGen (ParentEdge s) loc loc) ∧
      (∀ f : WalkFn Unit Nat, f.Keeps staleStore (· ≠ .stackExhausted) id → ∀ loc,
        applyToParentsRecursive f s.walkFuel (s.heap loc).req.ptr.id loc s ≠ .error .stackExhausted) ∧
      (∀ f : WalkFn Unit BlockPointer, f.Keeps staleStore (· ≠ .stackExhausted) BlockPointer.id →
        ∀ ptr loc, (s.heap loc).req.ptr.id = ptr.id →
          applyToPtrParentsRecursive f s.walkFuel ptr loc s ≠ .error .stackExhausted) :=
  have hr := Reachable.runEvents ActionOps.unit staleStore .init
    (show runEvents _ _ staleTrace _ = _ from rfl)
  ⟨_, hr, rfl, reachable_walks_terminate staleStore_acyclic hr⟩

/-- No event handled from a reachable state over an acyclic store runs out of depth:
    `run` never overflows its stack. -/
theorem reachable_handleEvent_ne_stackExhausted (hst : StoreAcyclic store)
    {s : BlockPrefetcher A} (h : Reachable act store s) (e : Event A) :
    handleEvent act store e s ≠ .error .stackExhausted :=
  (handleEvent_holds act (WalkBound.depth hst) e (reachable_wf act h)).ne_error (· rfl)

/-- No event handled from that state runs out of depth. -/
theorem staleTrace_handleEvent_ne_stackExhausted :
    ∃ s, Reachable ActionOps.unit staleStore s ∧ s.prefetches 2 = some 3 ∧
      ∀ e, handleEvent ActionOps.unit staleStore e s ≠ .error .stackExhausted :=
  have hr := Reachable.runEvents ActionOps.unit staleStore .init
    (show runEvents _ _ staleTrace _ = _ from rfl)
  ⟨_, hr, rfl, reachable_handleEvent_ne_stackExhausted staleStore_acyclic hr⟩

end Reachable

end KbfsPrefetcher
