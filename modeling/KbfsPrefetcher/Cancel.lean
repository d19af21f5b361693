import KbfsPrefetcher.Termination

/-
  The cancel case of `run`: what one cancel event for a pointer `ptr` changes.

  Model. `applyToPtrParentsRecursive(cancelPrefetch, ptr, pre)` starts at `ptr`'s record
  and, at each record it reaches through a pointer `q`, follows only the bucket of
  `q.RefNonce`. A pair (record, ref-nonce) is reached when a chain of such bucket edges
  (`PtrEdge`) of the state the event starts from leads to it from `ptr`'s pair (`Visits`).
  `Cancelled s V u` is the effect of canceling the pairs `V`: a record with no pair in `V`
  is as it was; a record loses exactly the buckets of its pairs and nothing else but its
  `closed` flag; a stored record with a pair in `V` is removed (closed, its reschedule state
  dropped) exactly when no bucket is left; no other `prefetches` or `rescheduled` entry
  changes.

  Proved: from a reachable state over an acyclic store a cancel event for a pointer whose
  ID has a record ends normally, with the effect `Cancelled s (Visits s ..)`
  (`handleCancel_effect`).

  The walk changes the map it follows. A parent removed earlier in the same event is no
  longer found, and its pointer is dropped instead of followed; such a record had lost all
  its buckets, so a pair reached through it has none to lose (`Ghost`), and the effect of
  the pairs the walk really reaches is the effect of `Visits` (`Cancelled.widen`). The
  loop at a record prunes the very bucket the record's own cancel then drops, so it is
  stated on the state with that record's parent map put back (`CancelLoop`).
-/

namespace KbfsPrefetcher

open BlockPrefetcher

variable {A : Type} {store : Nat → Block}

/-! ## Buckets -/

/-- Filtering buckets by a test of their ref-nonce. -/
theorem bucketOf_filter (q : Nat × List BlockPointer → Bool) (p : Nat → Bool) (hq : ∀ b, q b = p b.1)
    (m : Nat) (ps : Parents) : bucketOf m (ps.filter q) = if p m then bucketOf m ps else [] := by
  induction ps with
  | nil => simp [bucketOf]
  | cons b ps ih =>
    obtain ⟨k, l⟩ := b
    by_cases hk : k = m
    · subst hk
      by_cases hp : p k <;> simp [bucketOf, List.filter_cons, hq, hp, ih]
    · by_cases hp : p k <;> simp [bucketOf, List.filter_cons, hq, hk, hp, ih]

theorem bucketOf_dropBucket (k n : Nat) (ps : Parents) :
    bucketOf k (dropBucket n ps) = if k = n then [] else bucketOf k ps := by
  refine (bucketOf_filter _ (fun k => decide (k ≠ n)) (fun _ => rfl) k ps).trans ?_
  by_cases h : k = n <;> simp [h]

theorem bucketOf_dropParent (k n : Nat) (q : BlockPointer) (ps : Parents) :
    bucketOf k (dropParent n q ps) = if k = n then (bucketOf k ps).erase q else bucketOf k ps := by
  induction ps with
  | nil => simp [dropParent, bucketOf]
  | cons b ps ih =>
    obtain ⟨m, l⟩ := b
    simp only [dropParent, List.map_cons] at ih ⊢
    by_cases hm : m = n
    · rw [if_pos hm]
      unfold bucketOf
      split
      · subst_vars
        simp
      · exact ih
    · rw [if_neg hm]
      unfold bucketOf
      split
      · subst_vars
        simp [hm]
      · exact ih

theorem bucketOf_dropParent_subset (k n : Nat) (q : BlockPointer) (ps : Parents) :
    bucketOf k (dropParent n q ps) ⊆ bucketOf k ps := by
  rw [bucketOf_dropParent]
  split
  · exact List.erase_subset _ _
  · exact List.Subset.refl _

theorem dropBucket_dropParent (n : Nat) (q : BlockPointer) (ps : Parents) :
    dropBucket n (dropParent n q ps) = dropBucket n ps := by
  induction ps with
  | nil => rfl
  | cons b ps ih =>
    unfold dropBucket dropParent at ih ⊢
    rw [List.map_cons, List.filter_cons, List.filter_cons, ih]
    by_cases h : b.1 = n <;> simp [h]

theorem bucketOf_eq_nil {m : Nat} {ps : Parents} (h : ∀ b ∈ ps, b.1 ≠ m) : bucketOf m ps = [] := by
  induction ps with
  | nil => rfl
  | cons b ps ih =>
    obtain ⟨k, l⟩ := b
    simp only [bucketOf, if_neg (h _ (.head _))]
    exact ih fun b hb => h b (.tail _ hb)

/-- Every bucket of `t` is part of the same bucket of `s`. -/
def BucketsWithin (t s : BlockPrefetcher A) : Prop :=
  ∀ l k, bucketOf k (t.heap l).parents ⊆ bucketOf k (s.heap l).parents

theorem BucketsWithin.trans {u t s : BlockPrefetcher A} (h₂ : BucketsWithin u t)
    (h₁ : BucketsWithin t s) : BucketsWithin u s :=
  fun l k => (h₂ l k).trans (h₁ l k)

/-- Writing a record's parent map through `g` that shrinks every bucket. -/
theorem BucketsWithin.modify {s : BlockPrefetcher A} {loc : Nat} {g : Parents → Parents}
    (hg : ∀ k, bucketOf k (g (s.heap loc).parents) ⊆ bucketOf k (s.heap loc).parents) :
    BucketsWithin (s.modify loc fun pp => { pp with parents := g pp.parents }) s := by
  intro l k
  by_cases hl : l = loc
  · subst hl; simpa using hg k
  · simp [hl]

/-! ## The pairs a cancel walk reaches -/

/-- The walk at the record `x.1`, reached through a pointer with ref-nonce `x.2`, calls
    itself at the record `y.1` through a pointer with ref-nonce `y.2` of its bucket `x.2`. -/
def PtrEdge (s : BlockPrefetcher A) (x y : Nat × Nat) : Prop :=
  ∃ q ∈ bucketOf x.2 (s.heap x.1).parents, q.refNonce = y.2 ∧ s.prefetches q.id = some y.1

/-- The record `l`, reached through a ref-nonce `m`, lies on the way up from `x`. -/
def Visits (s : BlockPrefetcher A) (x : Nat × Nat) (l m : Nat) : Prop :=
  Relation.ReflTransGen (PtrEdge s) x (l, m)

theorem PtrEdge.parentEdge {s : BlockPrefetcher A} {x y : Nat × Nat} (h : PtrEdge s x y) :
    ParentEdge s x.1 y.1 :=
  let ⟨q, hq, _, hp⟩ := h
  ⟨q, bucketOf_subset _ _ hq, hp⟩

theorem PtrEdge.mono {s t : BlockPrefetcher A} (hb : BucketsWithin t s) (hw : t.Within s)
    {x y : Nat × Nat} (h : PtrEdge t x y) : PtrEdge s x y :=
  let ⟨q, hq, hn, hp⟩ := h
  ⟨q, hb _ _ hq, hn, hw.prefetches _ _ hp⟩

theorem Visits.mono {s t : BlockPrefetcher A} (hb : BucketsWithin t s) (hw : t.Within s)
    {x : Nat × Nat} {l m : Nat} (h : Visits t x l m) : Visits s x l m :=
  Relation.ReflTransGen.mono (fun _ _ => PtrEdge.mono hb hw) h

/-- Every pair on the way up from `x` is a record on or above `x.1`. -/
theorem Visits.reflTransGen {s : BlockPrefetcher A} {x : Nat × Nat} {l m : Nat}
    (h : Visits s x l m) : Relation.ReflTransGen (ParentEdge s) x.1 l :=
  Relation.ReflTransGen.lift Prod.fst (fun _ _ => PtrEdge.parentEdge) h

/-- After its first pair, the way up passes only through stored records. -/
theorem Visits.stored {s : BlockPrefetcher A} {x : Nat × Nat} {l m : Nat} (h : Visits s x l m)
    (hx : ∃ i, s.prefetches i = some x.1) : ∃ i, s.prefetches i = some l := by
  rcases Relation.ReflTransGen.cases_tail h with h | ⟨c, -, ⟨q, -, -, hq⟩⟩
  · exact (Prod.mk.inj h).1 ▸ hx
  · exact ⟨q.id, hq⟩

/-! ## The effect of canceling pairs -/

open Classical in
/-- `u` is `s` after canceling the pairs `V` (a record `l` with a ref-nonce `m` it is reached
    through). -/
structure Cancelled (s : BlockPrefetcher A) (V : Nat → Nat → Prop) (u : BlockPrefetcher A) :
    Prop where
  heap : ∀ l, (∀ m, ¬V l m) → u.heap l = s.heap l
  record : ∀ l, u.heap l = { s.heap l with parents := (u.heap l).parents, closed := (u.heap l).closed }
  parents : ∀ l, (u.heap l).parents = (s.heap l).parents.filter fun b => ¬V l b.1
  removed : ∀ i l, s.prefetches i = some l →
    (u.prefetches i = none ↔ (∃ m, V l m) ∧ (u.heap l).parents = [])
  kept : ∀ i l, u.prefetches i = some l → s.prefetches i = some l
  closed : ∀ i l, s.prefetches i = some l →
    ((u.heap l).closed = true ↔ (s.heap l).closed = true ∨ u.prefetches i = none)
  rescheduled : ∀ i, u.rescheduled i =
    if (s.prefetches i).isSome ∧ u.prefetches i = none then none else s.rescheduled i

namespace Cancelled

variable {s t u : BlockPrefetcher A} {V W : Nat → Nat → Prop}

theorem refl (s : BlockPrefetcher A) : Cancelled s (fun _ _ => False) s where
  heap _ _ := rfl
  record _ := rfl
  parents _ := by simp
  removed _ _ h := by simp [h]
  kept _ _ h := h
  closed _ _ h := by simp [h]
  rescheduled i := by cases h : s.prefetches i <;> simp [h]

open Classical in
/-- The buckets of `u` are those of `s` the canceled pairs leave. -/
theorem bucketsWithin (h : Cancelled s V u) : BucketsWithin u s := by
  intro l k
  rw [h.parents l, bucketOf_filter _ (fun k => decide ¬V l k) (fun _ => rfl)]
  split
  · exact List.Subset.refl _
  · exact List.nil_subset _

theorem prefetches_none (h : Cancelled s V u) {i : Nat} (hi : s.prefetches i = none) :
    u.prefetches i = none := by
  cases hu : u.prefetches i with
  | none => rfl
  | some l => rw [h.kept i l hu] at hi; cases hi

/-- A stored record with no canceled pair keeps its record under its ID. -/
theorem stays {i l : Nat} (h : Cancelled s V u) (hi : s.prefetches i = some l) (hl : ∀ m, ¬V l m) :
    u.prefetches i = some l := by
  cases hu : u.prefetches i with
  | none => exact absurd ((h.removed i l hi).1 hu).1 fun ⟨m, hm⟩ => hl m hm
  | some l' => rw [Option.some.inj ((h.kept i l' hu).symm.trans hi)]

/-- Canceling `V` and then, from there, `W` of records still stored cancels both. -/
theorem trans (h₁ : Cancelled s V t) (h₂ : Cancelled t W u)
    (hW : ∀ l m, W l m → ∃ i, t.prefetches i = some l) :
    Cancelled s (fun l m => V l m ∨ W l m) u where
  heap l hl := (h₂.heap l fun m hm => hl m (.inr hm)).trans (h₁.heap l fun m hm => hl m (.inl hm))
  record l := by rw [h₂.record l, h₁.record l]
  parents l := by
    rw [h₂.parents l, h₁.parents l, List.filter_filter]
    congr 1
    funext b
    by_cases hV : V l b.1 <;> by_cases hW : W l b.1 <;> simp [hV, hW]
  removed i l hi := by
    cases ht : t.prefetches i with
    | none =>
      obtain ⟨⟨m, hm⟩, hp⟩ := (h₁.removed i l hi).1 ht
      have hu := h₂.prefetches_none ht
      refine ⟨fun _ => ⟨⟨m, .inl hm⟩, ?_⟩, fun _ => hu⟩
      rw [h₂.parents l, hp]
      rfl
    | some l' =>
      obtain rfl : l = l' := Option.some.inj (hi.symm.trans (h₁.kept i l' ht))
      rw [h₂.removed i l ht]
      refine ⟨fun ⟨⟨m, hm⟩, hp⟩ => ⟨⟨m, .inr hm⟩, hp⟩, fun ⟨⟨m, hm⟩, hp⟩ => ⟨?_, hp⟩⟩
      by_contra hW'
      have hlt := h₂.heap l fun m' hm' => hW' ⟨m', hm'⟩
      rcases hm with hm | hm
      · rw [hlt] at hp
        exact absurd ((h₁.removed i l hi).2 ⟨⟨m, hm⟩, hp⟩) (by simp [ht])
      · exact hW' ⟨m, hm⟩
  kept i l hu := h₁.kept i l (h₂.kept i l hu)
  closed i l hi := by
    cases ht : t.prefetches i with
    | some l' =>
      obtain rfl : l = l' := Option.some.inj (hi.symm.trans (h₁.kept i l' ht))
      rw [h₂.closed i l ht, h₁.closed i l hi, ht]
      simp
    | none =>
      have hu := h₂.prefetches_none ht
      have htc : (t.heap l).closed = true := (h₁.closed i l hi).2 (.inr ht)
      simp only [hu, or_true, iff_true]
      by_cases hWl : ∃ m, W l m
      · obtain ⟨m, hm⟩ := hWl
        obtain ⟨j, hj⟩ := hW l m hm
        exact (h₂.closed j l hj).2 (.inl htc)
      · rw [h₂.heap l fun m hm => hWl ⟨m, hm⟩]
        exact htc
  rescheduled i := by
    rw [h₂.rescheduled i, h₁.rescheduled i]
    cases hs : s.prefetches i with
    | none => simp [h₁.prefetches_none hs]
    | some l =>
      cases ht : t.prefetches i with
      | none => simp [h₂.prefetches_none ht]
      | some l' => cases hu : u.prefetches i <;> simp

/-- Pairs `V` has no bucket for, at records `V` reaches already, change nothing. -/
theorem widen (h : Cancelled s V u) {V' : Nat → Nat → Prop} (hV : ∀ l m, V l m → V' l m)
    (hV' : ∀ l m, V' l m → V l m ∨ (∃ m', V l m') ∧ ∀ b ∈ (s.heap l).parents, b.1 ≠ m) :
    Cancelled s V' u where
  heap l hl := h.heap l fun m hm => hl m (hV l m hm)
  record := h.record
  parents l := by
    rw [h.parents l]
    refine List.filter_congr fun b hb => ?_
    simp only [decide_eq_decide]
    refine not_congr ⟨hV l b.1, fun hb' => ?_⟩
    rcases hV' l b.1 hb' with hb' | ⟨-, hk⟩
    · exact hb'
    · exact absurd rfl (hk b hb)
  removed i l hi := by
    rw [h.removed i l hi]
    refine and_congr_left fun _ => ⟨fun ⟨m, hm⟩ => ⟨m, hV l m hm⟩, fun ⟨m, hm⟩ => ?_⟩
    rcases hV' l m hm with hm | ⟨hm, -⟩
    · exact ⟨m, hm⟩
    · exact hm
  kept := h.kept
  closed := h.closed
  rescheduled := h.rescheduled

/-- A write to a record no canceled pair reaches, made on both sides. -/
theorem modify (h : Cancelled s V u) {loc : Nat} (hl : ∀ m, ¬V loc m) (g : Prefetch A → Prefetch A) :
    Cancelled (s.modify loc g) V (u.modify loc g) where
  heap l hl' := by
    by_cases e : l = loc
    · subst e; simp [h.heap l hl']
    · simp [e, h.heap l hl']
  record l := by
    by_cases e : l = loc
    · subst e; simp [h.heap l hl]
    · simp only [modify_heap, if_neg e]; exact h.record l
  parents l := by
    by_cases e : l = loc
    · subst e; simp [h.heap l hl, hl]
    · simp only [modify_heap, if_neg e]; exact h.parents l
  removed i l hi := by
    by_cases e : l = loc
    · subst e
      have := h.removed i l hi
      simp only [modify_prefetches] at this ⊢
      rw [this]
      simp [hl]
    · simp only [modify_prefetches, modify_heap, if_neg e] at hi ⊢
      exact h.removed i l hi
  kept := h.kept
  closed i l hi := by
    by_cases e : l = loc
    · subst e
      simp only [modify_prefetches, modify_heap, if_true] at hi ⊢
      rw [h.heap l hl, ← modify_prefetches u l g, ← modify_prefetches s l g] at *
      have := (h.removed i l hi).not.2 fun hr => (hr.1.elim fun m hm => hl m hm)
      simp [this]
    · simp only [modify_prefetches, modify_heap, if_neg e] at hi ⊢
      exact h.closed i l hi
  rescheduled := h.rescheduled

end Cancelled

/-! ## One cancel -/

/-- Canceling one pair `(loc, n)` of a stored, open record, given what `Local` leaves open:
    the record and the entries of its ID. -/
theorem Cancelled.single {t u : BlockPrefetcher A} {id loc n : Nat}
    (hid : ∀ i, t.prefetches i = some loc → i = id) (hk : t.prefetches id = some loc)
    (hc : (t.heap loc).closed = false) (hloc : u.Local t loc id)
    (hrec : u.heap loc =
      { t.heap loc with parents := dropBucket n (t.heap loc).parents, closed := (u.heap loc).closed })
    (hrm : u.prefetches id = none ↔ (u.heap loc).parents = [])
    (hkeep : u.prefetches id ≠ none → u.prefetches id = some loc)
    (hcl : (u.heap loc).closed = true ↔ u.prefetches id = none)
    (hres : u.rescheduled id = if u.prefetches id = none then none else t.rescheduled id) :
    Cancelled t (fun l m => l = loc ∧ m = n) u where
  heap l hl := hloc.heap l fun e => hl n ⟨e, rfl⟩
  record l := by
    by_cases e : l = loc
    · subst e; rw [hrec]
    · rw [hloc.heap l e]
  parents l := by
    by_cases e : l = loc
    · subst e; rw [hrec]; simp [dropBucket]
    · rw [hloc.heap l e]; simp [e]
  removed i l hi := by
    by_cases e : i = id
    · subst e
      obtain rfl := Option.some.inj (hi.symm.trans hk)
      rw [hrm]
      simp
    · have hl : l ≠ loc := fun hl => e (hid i (hl ▸ hi))
      rw [hloc.prefetches i e, hi]
      simp [hl]
  kept i l hu := by
    by_cases e : i = id
    · subst e
      obtain rfl : l = loc := Option.some.inj (hu.symm.trans (hkeep (by simp [hu])))
      exact hk
    · rwa [← hloc.prefetches i e]
  closed i l hi := by
    by_cases e : i = id
    · subst e
      obtain rfl := Option.some.inj (hi.symm.trans hk)
      simp [hcl, hc]
    · have hl : l ≠ loc := fun hl => e (hid i (hl ▸ hi))
      rw [hloc.heap l hl, hloc.prefetches i e, hi]
      simp
  rescheduled i := by
    by_cases e : i = id
    · subst e
      rw [hres, hk]
      simp
    · rw [hloc.rescheduled i e, hloc.prefetches i e]
      cases t.prefetches i <;> simp

/-- `cancelPrefetch` at a stored, open record cancels its one pair, without a panic. -/
theorem cancelPrefetch_cancelled {t : BlockPrefetcher A} {ptr : BlockPointer} {loc : Nat}
    (hid : ∀ i, t.prefetches i = some loc → i = ptr.id) (hk : t.prefetches ptr.id = some loc)
    (hc : (t.heap loc).closed = false) :
    ∃ u, cancelPrefetch ptr loc t = .ok u ∧ Cancelled t (fun l m => l = loc ∧ m = ptr.refNonce) u := by
  let t₁ := t.modify loc fun pp => { pp with parents := dropBucket ptr.refNonce pp.parents }
  by_cases hne : (t₁.heap loc).parents.isEmpty
  · let closed₁ := (t₁.deletePrefetch ptr.id).modify loc fun pp => { pp with closed := true }
    have heq : cancelPrefetch ptr loc t =
        .ok ((closed₁.clearRescheduleState ptr.id).deleteRescheduled ptr.id) := by
      simp [cancelPrefetch, t₁, closed₁] at hne ⊢
      simp [hne, close, hc]
    have hne' : dropBucket ptr.refNonce (t.heap loc).parents = [] := by simpa [t₁] using hne
    refine ⟨_, heq, .single hid hk hc ((cancelPrefetch_local ptr loc t).of_ok heq) ?_ ?_ ?_ ?_ ?_⟩ <;>
      simp [closed₁, t₁, hne']
  · have heq : cancelPrefetch ptr loc t = .ok t₁ := by
      simp [cancelPrefetch, t₁] at hne ⊢
      simp [hne]
      rfl
    have hne' : dropBucket ptr.refNonce (t.heap loc).parents ≠ [] := by simpa [t₁] using hne
    refine ⟨_, heq, .single hid hk hc ((cancelPrefetch_local ptr loc t).of_ok heq) ?_ ?_ ?_ ?_ ?_⟩ <;>
      simp [t₁, hk, hc, hne']

/-! ## The loop at one record -/

/-- The cancel of a record reads its parent map only through the buckets it keeps. -/
theorem cancelPrefetch_modify_parents {t : BlockPrefetcher A} {ptr : BlockPointer} {loc : Nat}
    {ps : Parents} (h : dropBucket ptr.refNonce ps = dropBucket ptr.refNonce (t.heap loc).parents) :
    cancelPrefetch ptr loc (t.modify loc fun pp => { pp with parents := ps }) = cancelPrefetch ptr loc t := by
  have e : ((t.modify loc fun pp => { pp with parents := ps }).modify loc
      fun pp => { pp with parents := dropBucket ptr.refNonce pp.parents }) =
      t.modify loc fun pp => { pp with parents := dropBucket ptr.refNonce pp.parents } := by
    rw [BlockPrefetcher.modify_modify]
    simp only [BlockPrefetcher.modify, h]
  simp only [cancelPrefetch, e]

/-- A pair at a record `V` reaches, for a ref-nonce the record has no bucket for in `s`:
    canceling it changes nothing, and the walk goes on from it to nothing. -/
def Ghost (s : BlockPrefetcher A) (V : Nat → Nat → Prop) (l m : Nat) : Prop :=
  (∃ m', V l m') ∧ ∀ b ∈ (s.heap l).parents, b.1 ≠ m

theorem Ghost.mono {s : BlockPrefetcher A} {V W : Nat → Nat → Prop} {l m : Nat}
    (h : Ghost s V l m) (hV : ∀ l m, V l m → W l m) : Ghost s W l m :=
  ⟨h.1.imp fun m' => hV l m', h.2⟩

/-- Every pointer of `qs` whose ID has a record in `s` leads to a canceled pair or a ghost. -/
def Reached (s : BlockPrefetcher A) (V : Nat → Nat → Prop) (qs : List BlockPointer) : Prop :=
  ∀ q ∈ qs, ∀ p, s.prefetches q.id = some p → V p q.refNonce ∨ Ghost s V p q.refNonce

theorem Reached.mono {s : BlockPrefetcher A} {V W : Nat → Nat → Prop} {qs : List BlockPointer}
    (h : Reached s V qs) (hV : ∀ l m, V l m → W l m) : Reached s W qs :=
  fun q hq p hp => (h q hq p hp).imp (hV p _) (Ghost.mono · hV)

/-- The loop of the cancel walk at the record `loc` of `s`, reached through the ref-nonce
    `n`, in a state `t` after the pairs `V` were canceled and pointers of the bucket `n`
    pruned: `V` is on the way up from `(loc, n)` and closed under its edges up to ghosts. -/
structure CancelLoop (store : Nat → Block) (s : BlockPrefetcher A) (loc n : Nat)
    (V : Nat → Nat → Prop) (t : BlockPrefetcher A) : Prop where
  wf : Wf store t
  within : t.Within s
  buckets : BucketsWithin t s
  cancelled : Cancelled s V (t.modify loc fun pp => { pp with parents := (s.heap loc).parents })
  rest : dropBucket n (t.heap loc).parents = dropBucket n (s.heap loc).parents
  off : ∀ m, ¬V loc m
  visits : ∀ l m, V l m → Visits s (loc, n) l m
  closure : ∀ l m, V l m → ∀ y, PtrEdge s (l, m) y → V y.1 y.2 ∨ Ghost s V y.1 y.2

namespace CancelLoop

variable {s t : BlockPrefetcher A} {loc n : Nat} {V : Nat → Nat → Prop}

theorem start (hs : Wf store s) : CancelLoop store s loc n (fun _ _ => False) s where
  wf := hs
  within := .refl s
  buckets _ _ := List.Subset.refl _
  cancelled := by rw [BlockPrefetcher.modify_parents_self]; exact .refl s
  rest := rfl
  off _ h := h
  visits _ _ h := h.elim
  closure _ _ h := h.elim

/-- A record removed since `s` has lost all its buckets: any pair of it is canceled or a
    ghost. -/
theorem removed (h : CancelLoop store s loc n V t) {i p : Nat} (hs : s.prefetches i = some p)
    (ht : t.prefetches i = none) (k : Nat) : V p k ∨ Ghost s V p k := by
  obtain ⟨hV, hp⟩ := (h.cancelled.removed i p hs).1 (by simpa using ht)
  rw [h.cancelled.parents p, List.filter_eq_nil_iff] at hp
  by_cases hk : ∃ b ∈ (s.heap p).parents, b.1 = k
  · obtain ⟨b, hb, rfl⟩ := hk
    exact .inl (by simpa using hp b hb)
  · exact .inr ⟨hV, fun b hb e => hk ⟨b, hb, e⟩⟩

/-- A write to the record's parent map that keeps every bucket but `n` and shrinks `n`. -/
theorem prune (h : CancelLoop store s loc n V t) {g : Parents → Parents}
    (hg : dropBucket n (g (t.heap loc).parents) = dropBucket n (t.heap loc).parents)
    (hb : ∀ k, bucketOf k (g (t.heap loc).parents) ⊆ bucketOf k (t.heap loc).parents)
    (ha : allParents (g (t.heap loc).parents) ⊆ allParents (t.heap loc).parents)
    (hgo : GoMap (t.heap loc).parents → GoMap (g (t.heap loc).parents)) :
    CancelLoop store s loc n V (t.modify loc fun pp => { pp with parents := g pp.parents }) where
  wf := h.wf.of_within (Within.modify rfl ha hgo rfl rfl)
  within := (Within.modify rfl ha hgo rfl rfl).trans h.within
  buckets := (BucketsWithin.modify hb).trans h.buckets
  cancelled := by rw [BlockPrefetcher.modify_modify]; exact h.cancelled
  rest := by simpa [hg] using h.rest
  off := h.off
  visits := h.visits
  closure := h.closure

theorem dropParent (h : CancelLoop store s loc n V t) (q : BlockPointer) :
    CancelLoop store s loc n V
      (t.modify loc fun pp => { pp with parents := KbfsPrefetcher.dropParent n q pp.parents }) :=
  h.prune (dropBucket_dropParent _ _ _) (fun k => bucketOf_dropParent_subset k n q _)
    (allParents_dropParent _ _ _) (goMap_dropParent · _ _)

theorem dropIfEmpty (h : CancelLoop store s loc n V t) :
    CancelLoop store s loc n V (KbfsPrefetcher.dropIfEmpty loc n t) := by
  unfold KbfsPrefetcher.dropIfEmpty
  split
  · refine h.prune (by simp [dropBucket, List.filter_filter]) (fun k => ?_) (allParents_dropBucket _ _)
      (goMap_dropBucket · _)
    rw [bucketOf_dropBucket]
    split
    · exact List.nil_subset _
    · exact List.Subset.refl _
  · exact h

/-- The walk from a parent still stored: its pairs join `V`. -/
theorem parent (hst : StoreAcyclic store) (hs : Wf store s) (h : CancelLoop store s loc n V t)
    {q : BlockPointer} {p : Nat} (hq : q ∈ bucketOf n (s.heap loc).parents)
    (hp : t.prefetches q.id = some p) {u : BlockPrefetcher A}
    (hu : Cancelled t (Visits t (p, q.refNonce)) u) (hwf : Wf store u) (hw : u.Within t) :
    CancelLoop store s loc n (fun l m => V l m ∨ Visits t (p, q.refNonce) l m) u := by
  have hedge : PtrEdge s (loc, n) (p, q.refNonce) := ⟨q, hq, rfl, h.within.prefetches _ _ hp⟩
  have hoff : ∀ l m, Visits t (p, q.refNonce) l m → l ≠ loc := by
    rintro l m hm rfl
    exact hs.parentEdge_acyclic hst l
      (.head' hedge.parentEdge (ParentEdge.reflTransGen_of_within h.within hm.reflTransGen))
  have hoff' : ∀ m, ¬Visits t (p, q.refNonce) loc m := fun m hm => hoff _ _ hm rfl
  refine ⟨hwf, hw.trans h.within, hu.bucketsWithin.trans h.buckets, ?_, ?_, ?_, ?_, ?_⟩
  · refine h.cancelled.trans (hu.modify hoff' _) fun l m hm => ?_
    simpa using hm.stored ⟨q.id, hp⟩
  · rw [hu.heap loc hoff']
    exact h.rest
  · exact fun m hm => hm.elim (h.off m) (hoff' m)
  · rintro l m (hm | hm)
    · exact h.visits l m hm
    · exact .head hedge (hm.mono h.buckets h.within)
  · rintro l m (hm | hm) y hy
    · rcases h.closure l m hm y hy with hy' | hy'
      · exact .inl (.inl hy')
      · exact .inr (hy'.mono fun _ _ => .inl)
    · by_cases hV : V l m
      · rcases h.closure l m hV y hy with hy' | hy'
        · exact .inl (.inl hy')
        · exact .inr (hy'.mono fun _ _ => .inl)
      obtain ⟨q', hq', hn', hp'⟩ := hy
      have hq't : q' ∈ bucketOf m (t.heap l).parents := by
        classical
        have := h.cancelled.parents l
        simp only [modify_heap, if_neg (hoff l m hm)] at this
        rw [this, bucketOf_filter _ (fun k => decide ¬V l k) (fun _ => rfl)]
        simpa [hV] using hq'
      cases ht' : t.prefetches q'.id with
      | some p' =>
        obtain rfl : p' = y.1 := Option.some.inj ((h.within.prefetches _ _ ht').symm.trans hp')
        exact .inl (.inr (hm.tail ⟨q', hq't, hn', ht'⟩))
      | none =>
        rcases h.removed hp' ht' y.2 with hy' | hy'
        · exact .inl (.inl hy')
        · exact .inr (hy'.mono fun _ _ => .inl)

/-- After the loop and the bucket's deletion, the record's own cancel: the pairs canceled
    are those on the way up from `(loc, n)`. -/
theorem finish {ptr : BlockPointer} (hk : s.prefetches ptr.id = some loc)
    (h : CancelLoop store s loc ptr.refNonce V t)
    (hr : Reached s V (bucketOf ptr.refNonce (s.heap loc).parents)) :
    ∃ u, cancelPrefetch ptr loc t = .ok u ∧ Wf store u ∧ u.Within s ∧
      Cancelled s (Visits s (loc, ptr.refNonce)) u := by
  have hk' := h.cancelled.stays hk h.off
  have hkt : t.prefetches ptr.id = some loc := by simpa using hk'
  have hc : ((t.modify loc fun pp => { pp with parents := (s.heap loc).parents }).heap loc).closed =
      false := by simpa using h.wf.isOpen _ _ hkt
  obtain ⟨u, hu, hcu⟩ := cancelPrefetch_cancelled (fun i hi => (h.wf.keyed i loc (by simpa using hi)).symm.trans
    (h.wf.keyed _ _ hkt)) hk' hc
  rw [cancelPrefetch_modify_parents h.rest.symm] at hu
  have hall := h.cancelled.trans hcu fun l m hm => ⟨ptr.id, hm.1 ▸ hk'⟩
  obtain ⟨hwf, hw⟩ := (cancelPrefetch_keeps ptr loc t h.wf (h.wf.keyed _ _ hkt)).of_ok hu
  refine ⟨u, hu, hwf, hw.trans h.within, hall.widen ?_ fun l m hm => ?_⟩
  · rintro l m (hm | ⟨rfl, rfl⟩)
    · exact h.visits l m hm
    · exact .refl
  · -- every pair on the way up is canceled or a ghost, by induction along the way
    suffices ∀ y, Relation.ReflTransGen (PtrEdge s) (loc, ptr.refNonce) y →
        (V y.1 y.2 ∨ y.1 = loc ∧ y.2 = ptr.refNonce) ∨
          Ghost s (fun l m => V l m ∨ l = loc ∧ m = ptr.refNonce) y.1 y.2 from this _ hm
    intro y hy
    induction hy with
    | refl => exact .inl (.inr ⟨rfl, rfl⟩)
    | tail _ he ih =>
      rcases ih with (hz | ⟨hz₁, hz₂⟩) | hz
      · rcases h.closure _ _ hz _ he with hy' | hy'
        · exact .inl (.inl hy')
        · exact .inr (hy'.mono fun _ _ => .inl)
      · obtain ⟨q, hq, hn, hp⟩ := he
        rw [hz₁, hz₂] at hq
        rcases hr q hq _ hp with hy' | hy'
        · exact .inl (.inl (hn ▸ hy'))
        · exact .inr (hn ▸ hy'.mono fun _ _ => .inl)
      · obtain ⟨q, hq, -⟩ := he
        rw [bucketOf_eq_nil hz.2] at hq
        cases hq

end CancelLoop

/-! ## The walk -/

/-- The loop over the bucket `n` of the record at `loc`, each parent handled by a walk that
    cancels the pairs on its way up. -/
theorem cancelLoop_foldlM (hst : StoreAcyclic store) {s : BlockPrefetcher A} (hs : Wf store s)
    {loc n fuel : Nat} (hen : DepthBelow (fuel + 1) loc s)
    (IH : ∀ (ptr : BlockPointer) loc (t : BlockPrefetcher A), Wf store t →
      t.prefetches ptr.id = some loc → DepthBelow fuel loc t →
      ∃ u, applyToPtrParentsRecursive cancelPrefetch fuel ptr loc t = .ok u ∧ Wf store u ∧
        u.Within t ∧ Cancelled t (Visits t (loc, ptr.refNonce)) u) :
    ∀ (qs : List BlockPointer) {V : Nat → Nat → Prop} {t : BlockPrefetcher A},
      qs ⊆ bucketOf n (s.heap loc).parents → CancelLoop store s loc n V t →
      ∃ V' u, qs.foldlM (visitParent (fun pptr parent s =>
          applyToPtrParentsRecursive cancelPrefetch fuel pptr parent s) loc n) t = .ok u ∧
        CancelLoop store s loc n V' u ∧ Reached s V' qs ∧ ∀ l m, V l m → V' l m
  | [], V, t, _, h => ⟨V, t, rfl, h, fun _ hq => (nomatch hq), fun _ _ h => h⟩
  | q :: qs, V, t, hsub, h => by
    have hq := hsub (.head _)
    obtain ⟨V₁, t₁, h₁, hl₁, hr₁, hV₁⟩ : ∃ V₁ t₁, visitParent (fun pptr parent s =>
        applyToPtrParentsRecursive cancelPrefetch fuel pptr parent s) loc n t q = .ok t₁ ∧
        CancelLoop store s loc n V₁ t₁ ∧ Reached s V₁ [q] ∧ ∀ l m, V l m → V₁ l m := by
      unfold visitParent
      split
      · rename_i hnone
        refine ⟨V, _, rfl, h.dropParent q, fun q' hq' p hp => ?_, fun _ _ h => h⟩
        rw [List.mem_singleton.1 hq'] at hp ⊢
        exact h.removed hp hnone _
      · rename_i p hp
        obtain ⟨u, hu, hwf, hw, hc⟩ := IH q p t h.wf hp
          ((depthBelow_fuelSpec (E := fun _ => True)).succ fuel loc s t q p hs hen (bucketOf_subset _ _ hq)
            h.within hp)
        refine ⟨_, u, hu, h.parent hst hs hq hp hc hwf hw, fun q' hq' p' hp' => ?_, fun _ _ h => .inl h⟩
        rw [List.mem_singleton.1 hq'] at hp' ⊢
        obtain rfl : p = p' := Option.some.inj ((h.within.prefetches _ _ hp).symm.trans hp')
        exact .inl (.inr .refl)
    obtain ⟨V', u, hu, hl', hr', hV'⟩ := cancelLoop_foldlM hst hs hen IH qs
      (fun x hx => hsub (.tail _ hx)) hl₁
    refine ⟨V', u, by simpa [List.foldlM_cons, h₁] using hu, hl', fun q' hq' => ?_,
      fun l m h => hV' l m (hV₁ l m h)⟩
    rcases List.mem_cons.1 hq' with rfl | hq'
    · exact (hr₁.mono hV') q' (.head _)
    · exact hr' q' hq'

/-- The cancel walk from a stored record of a well-formed state over an acyclic store, with
    a depth bound above every chain, ends normally and cancels the pairs on its way up. -/
theorem cancelWalk (hst : StoreAcyclic store) :
    ∀ fuel (ptr : BlockPointer) loc (s : BlockPrefetcher A), Wf store s →
      s.prefetches ptr.id = some loc → DepthBelow fuel loc s →
      ∃ u, applyToPtrParentsRecursive cancelPrefetch fuel ptr loc s = .ok u ∧ Wf store u ∧
        u.Within s ∧ Cancelled s (Visits s (loc, ptr.refNonce)) u
  | 0, _, _, _, _, _, hen => absurd (hen [] .nil) (Nat.not_lt_zero 0)
  | fuel + 1, ptr, loc, s, hs, hk, hen => by
    obtain ⟨V, t, hfold, hl, hr, -⟩ := cancelLoop_foldlM hst hs hen (cancelWalk hst fuel) _
      (List.Subset.refl _) (show CancelLoop store s loc ptr.refNonce (fun _ _ => False) s from .start hs)
    obtain ⟨u, hu, hwf, hw, hc⟩ := hl.dropIfEmpty.finish hk hr
    exact ⟨u, by simpa [applyToPtrParentsRecursive, visitPtrParents, hfold] using hu, hwf, hw, hc⟩

section Reachable

variable [Inhabited A] [DecidableEq A] {act : ActionOps A}

/-- From a reachable state over an acyclic store, a cancel event for a pointer whose ID has a
    record ends normally. It cancels exactly the pairs on the way up from the pointer's
    record through the pointer's ref-nonce: every record it does not reach is as it was and
    keeps its ID's record; a reached record loses exactly the buckets it was reached
    through, and is removed, closed and its reschedule state dropped, iff none is left; no
    count or other `rescheduled` entry changes. -/
theorem handleCancel_effect (hst : StoreAcyclic store) {s : BlockPrefetcher A}
    (hr : Reachable act store s) {ptr : BlockPointer} {loc : Nat}
    (hp : s.prefetches ptr.id = some loc) :
    ∃ u, handleCancel ptr s = .ok u ∧ Cancelled s (Visits s (loc, ptr.refNonce)) u ∧
      ∀ i l, s.prefetches i = some l → (∀ m, ¬Visits s (loc, ptr.refNonce) l m) →
        u.prefetches i = some l ∧ u.heap l = s.heap l := by
  have hs := reachable_wf act hr
  obtain ⟨u, hu, -, -, hc⟩ := cancelWalk hst s.walkFuel ptr loc s hs hp
    ((WalkBound.depth hst).start s loc hs)
  exact ⟨u, by simp [handleCancel, hp, hu], hc, fun i l hi hl => ⟨hc.stays hi hl, hc.heap l hl⟩⟩

end Reachable

/-! ## Two ref-nonces of one block -/

/-- Blocks 1 and 2 both list block 3, under the ref-nonces 0 and 1. -/
def sharedStore : Nat → Block := fun id =>
  if id = 1 then .file true [⟨3, 0⟩] else if id = 2 then .file true [⟨3, 1⟩] else .file false []

theorem childOf_sharedStore {p c : Nat} : ChildOf sharedStore p c ↔ (p = 1 ∨ p = 2) ∧ c = 3 := by
  unfold ChildOf sharedStore
  by_cases h1 : p = 1 <;> by_cases h2 : p = 2 <;> simp [h1, h2, Block.childPtrs, eq_comm]

theorem sharedStore_acyclic : StoreAcyclic sharedStore :=
  StoreAcyclic.of_lt fun _ _ h => by
    rcases childOf_sharedStore.1 h with ⟨rfl | rfl, rfl⟩ <;> decide

/-- Blocks 1 and 2 are prefetched: block 3's record (at 1) hangs below block 1's (at 0)
    through ref-nonce 0 and below block 2's (at 2) through ref-nonce 1. Canceling block 3
    under ref-nonce 0 cancels the pairs on the way up through block 1 only. -/
theorem sharedChild_cancel_effect :
    StoreAcyclic sharedStore ∧ ∃ s, Reachable ActionOps.unit sharedStore s ∧
      s.prefetches 3 = some 1 ∧ ∃ u, handleCancel ⟨3, 0⟩ s = .ok u ∧
        Cancelled s (Visits s (1, 0)) u ∧ ∀ i l, s.prefetches i = some l →
          (∀ m, ¬Visits s (1, 0) l m) → u.prefetches i = some l ∧ u.heap l = s.heap l := by
  have hr := Reachable.runEvents ActionOps.unit sharedStore .init
    (show runEvents _ _ [fetchEvent 1, fetchEvent 2] _ = _ from rfl)
  exact ⟨sharedStore_acyclic, _, hr, rfl, handleCancel_effect sharedStore_acyclic hr rfl⟩

/-- Run to the end: block 1's ID is gone, block 2's and block 3's are kept. -/
example : (runEvents ActionOps.unit sharedStore [fetchEvent 1, fetchEvent 2, .cancel ⟨3, 0⟩] .empty).map
    (fun u => (u.prefetches 1, u.prefetches 2, u.prefetches 3)) = .ok (none, some 2, some 1) := rfl

end KbfsPrefetcher
