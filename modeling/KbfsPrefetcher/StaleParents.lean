import KbfsPrefetcher.Edges

/-
  Stale parent pointers, and what they do to the counts.

  `run`'s design comment gives every record, as its `subtreeBlockCount`, the number of
  unfetched blocks below it counted once per chain of parent edges (`unfetchedBelow`). A
  record leaves `prefetches` when it completes, is canceled or is rescheduled, and only the
  records the walk visits, its ancestors, lose their pointers to removed records: the
  functions a walk applies write only their own record (`completePrefetch_local`,
  `cancelPrefetch_local`, `rescheduleTopBlock_local`), and a walk only the records above
  its start (`LoopRel.frame`), so the records of the removed one's children keep their
  pointers. When the ID is requested again, `childRecord` makes a fresh record with count
  1, and every child that kept a pointer hangs below it at once, its count never added to
  the new record's.

  The scenario `staleStore`/`staleTrace` shows the consequences on a store with no cycle:
  a count that disagrees with `unfetchedBelow`, a record left at count 0, two sibling
  fetches whose order decides whether an ancestor completes, and a `completePrefetch`
  that oversteps and panics.
-/

namespace KbfsPrefetcher

open BlockPrefetcher

variable {A : Type}

/-! ## The count the design intends -/

/-- The chains of parent edges from the record at `c` up to the record at `a` through
    stored records, counted pointer by pointer, among those of at most `fuel` edges. -/
def pathsUp (s : BlockPrefetcher A) (a : Nat) : Nat → Nat → Nat
  | 0, c => if c = a then 1 else 0
  | fuel + 1, c => (if c = a then 1 else 0) +
      ((allParents (s.heap c).parents).map fun q =>
        match s.prefetches q.id with
        | none => 0
        | some p => pathsUp s a fuel p).foldr (· + ·) 0

/-- The record at `l` is the one its request's ID maps to. -/
def BlockPrefetcher.isStored (s : BlockPrefetcher A) (l : Nat) : Bool :=
  s.prefetches (s.heap l).req.ptr.id = some l

/-- The count `run`'s design comment gives the record at `a`: the pairs of an untriggered
    stored record and a chain of parent edges from it up to `a` through stored records
    (a chain has at most `next` edges, `Wf.chain_length_le`). -/
def unfetchedBelow (s : BlockPrefetcher A) (a : Nat) : Nat :=
  (((List.range s.next).filter fun n => s.isStored n && !(s.heap n).subtreeTriggered).map
    fun n => pathsUp s a s.next n).foldr (· + ·) 0

/-! ## The scenario -/

/-- Block 1 lists blocks 2 and 4, block 2 lists block 3; blocks 3 and 4 are direct file
    blocks. -/
def staleStore : Nat → Block := fun id =>
  if id = 1 then .file true [⟨2, 0⟩, ⟨4, 0⟩] else if id = 2 then .file true [⟨3, 0⟩]
  else .file false []

theorem childOf_staleStore {p c : Nat} :
    ChildOf staleStore p c ↔ p = 1 ∧ (c = 2 ∨ c = 4) ∨ p = 2 ∧ c = 3 := by
  unfold ChildOf staleStore
  by_cases h1 : p = 1 <;> by_cases h2 : p = 2 <;> simp [h1, h2, Block.childPtrs, eq_comm]

theorem staleStore_acyclic : StoreAcyclic staleStore :=
  StoreAcyclic.of_lt fun _ _ h => by
    rcases childOf_staleStore.1 h with ⟨rfl, rfl | rfl⟩ | ⟨rfl, rfl⟩ <;> decide

/-- A request for block `id` as `ProcessBlockForPrefetch` enqueues it for a block the
    cache has not prefetched. -/
def fetchRequest (id : Nat) : PrefetchRequest Unit := ⟨⟨id, 0⟩, 0, .noPrefetch, (), false⟩

/-- That request, whose retrievals all succeed, with no disk cache. -/
def fetchEvent (id : Nat) : Event Unit := .request (fetchRequest id) true .noDiskCache fun _ => true

/-- Block 2 is prefetched as a root (its record at 0, block 3's at 1) and canceled, which
    leaves block 3's record pointing to ID 2. Then block 1 is prefetched (at 2), and block 2
    gets a new record (at 3) with count 1, which block 3's record hangs below. -/
def staleTrace : List (Event Unit) := [fetchEvent 2, .cancel ⟨2, 0⟩, fetchEvent 1]

/-- Fetching block 2 after `staleTrace` decrements records 2 and 1 and adds nothing for the
    already attached child 3; fetching block 3 then completes 3 with its count 1 up the
    stale pointer, removes record 1 at 0 and oversteps record 2. -/
theorem staleTrace_completePrefetch_oversteps :
    StoreAcyclic staleStore ∧
      runEvents ActionOps.unit staleStore (staleTrace ++ [fetchEvent 2, fetchEvent 3]) .empty =
        .error (.completePrefetchOverstepped 2) :=
  ⟨staleStore_acyclic, rfl⟩

/-- After `staleTrace` and the fetch of block 2, record 2 has count 0 while the untriggered
    record 3 hangs below it. -/
theorem staleTrace_count_mismatch :
    StoreAcyclic staleStore ∧ ∃ s, Reachable ActionOps.unit staleStore s ∧
      s.prefetches 2 = some 3 ∧ (s.heap 3).subtreeBlockCount = 0 ∧ unfetchedBelow s 3 = 1 :=
  ⟨staleStore_acyclic, _, Reachable.runEvents ActionOps.unit staleStore .init
    (show runEvents _ _ (staleTrace ++ [fetchEvent 2]) _ = _ from rfl), rfl, rfl, rfl⟩

/-- The same fetch ends normally and leaves record 2 stored, open, at count 0. -/
theorem staleTrace_zero_count_left :
    StoreAcyclic staleStore ∧ ∃ s, Reachable ActionOps.unit staleStore s ∧
      s.prefetches 2 = some 3 ∧ (s.heap 3).subtreeBlockCount = 0 ∧ (s.heap 3).closed = false :=
  ⟨staleStore_acyclic, _, Reachable.runEvents ActionOps.unit staleStore .init
    (show runEvents _ _ (staleTrace ++ [fetchEvent 2]) _ = _ from rfl), rfl, rfl, rfl⟩

/-- Blocks 2 and 4 are siblings under block 1. After `staleTrace`, fetching 2 then 4 brings
    record 1 to 0 by `decrementPrefetch`, then `completePrefetch` removes it; fetching 4
    then 2 brings it to 0 by `decrementPrefetch` last, and it stays. -/
theorem staleTrace_sibling_order :
    ¬Relation.TransGen (ChildOf staleStore) 2 4 ∧ ¬Relation.TransGen (ChildOf staleStore) 4 2 ∧
    ∃ s s₁ s₂, Reachable ActionOps.unit staleStore s ∧
      runEvents ActionOps.unit staleStore [fetchEvent 2, fetchEvent 4] s = .ok s₁ ∧
      runEvents ActionOps.unit staleStore [fetchEvent 4, fetchEvent 2] s = .ok s₂ ∧
      s₁.prefetches 1 = none ∧ s₂.prefetches 1 = some 2 := by
  refine ⟨fun h => ?_, fun h => ?_, _, _, _,
    Reachable.runEvents ActionOps.unit staleStore .init
      (show runEvents _ _ staleTrace _ = _ from rfl), rfl, rfl, rfl, rfl⟩
  · obtain ⟨c, hc, h⟩ := Relation.TransGen.head'_iff.1 h
    obtain rfl : c = 3 := by simpa using childOf_staleStore.1 hc
    rcases Relation.ReflTransGen.cases_head h with h | ⟨d, hd, -⟩
    · cases h
    · simpa using childOf_staleStore.1 hd
  · simpa using childOf_staleStore.1 (Relation.TransGen.head'_iff.1 h).choose_spec.1

end KbfsPrefetcher
