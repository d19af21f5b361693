import KbfsPrefetcher.Shift

/-
  How the design's count `unfetchedBelow` moves under each change a request makes.

  Model: `SameChains t t'` says `t'` agrees with `t` on all the count reads (`prefetches`,
  `next`, and each record's parents, request pointer and triggered flag); actions, counts,
  reschedule state and outputs are free.

  Proved, for a well-formed state over an acyclic store:
  * `SameChains.unfetchedBelow`: the count depends only on what `SameChains` keeps.
  * `unfetchedBelow_trigger`: triggering the stored record `r` takes the chains from `r`
    off every count.
  * `unfetchedBelow_withRecord`: a new untriggered record with no parents, under an ID no
    stored pointer names, counts 1 at itself and changes no other count.
  * `unfetchedBelow_withEdge`: a parent pointer from `c` to the record `r`, where no chain
    leads from `r` to `c`, adds `N(r,a) * unfetchedBelow c` at `a`.
-/

namespace KbfsPrefetcher

open BlockPrefetcher

variable {A : Type} {store : Nat → Block}

/-! ## What the count reads -/

/-- `t'` agrees with `t` on `prefetches`, `next`, and each record's parent map, request
    pointer and triggered flag. -/
structure SameChains (t t' : BlockPrefetcher A) : Prop where
  prefetches : t'.prefetches = t.prefetches
  next : t'.next = t.next
  parents : ∀ l, (t'.heap l).parents = (t.heap l).parents
  ptr : ∀ l, (t'.heap l).req.ptr = (t.heap l).req.ptr
  triggered : ∀ l, (t'.heap l).subtreeTriggered = (t.heap l).subtreeTriggered

namespace SameChains

variable {t t' t'' : BlockPrefetcher A}

theorem refl (t : BlockPrefetcher A) : SameChains t t :=
  ⟨rfl, rfl, fun _ => rfl, fun _ => rfl, fun _ => rfl⟩

theorem trans (h₁ : SameChains t t') (h₂ : SameChains t' t'') : SameChains t t'' :=
  ⟨h₂.prefetches.trans h₁.prefetches, h₂.next.trans h₁.next,
    fun l => (h₂.parents l).trans (h₁.parents l), fun l => (h₂.ptr l).trans (h₁.ptr l),
    fun l => (h₂.triggered l).trans (h₁.triggered l)⟩

/-- A write that keeps the record's parents, pointer and triggered flag. -/
theorem modify (t : BlockPrefetcher A) (l : Nat) {g : Prefetch A → Prefetch A}
    (hp : (g (t.heap l)).parents = (t.heap l).parents)
    (hr : (g (t.heap l)).req.ptr = (t.heap l).req.ptr)
    (ht : (g (t.heap l)).subtreeTriggered = (t.heap l).subtreeTriggered) :
    SameChains t (t.modify l g) :=
  ⟨rfl, rfl, fun x => by by_cases hx : x = l <;> simp [hx, hp],
    fun x => by by_cases hx : x = l <;> simp [hx, hr],
    fun x => by by_cases hx : x = l <;> simp [hx, ht]⟩

theorem emit (t : BlockPrefetcher A) (o : Output A) : SameChains t (t.emit o) :=
  ⟨rfl, rfl, fun _ => rfl, fun _ => rfl, fun _ => rfl⟩

theorem clearRescheduleState (t : BlockPrefetcher A) (id : Nat) :
    SameChains t (t.clearRescheduleState id) :=
  ⟨by simp, by simp, fun _ => by simp, fun _ => by simp, fun _ => by simp⟩

/-- Shifts that remove nothing. -/
theorem of_shifted {δ : Int} {D : Nat → Nat} (h : Shifted δ none t D t') : SameChains t t' :=
  ⟨funext fun i => by
    cases hi : t.prefetches i with
    | none => cases hi' : t'.prefetches i with
      | none => rfl
      | some l => rw [((h.prefetches i l).1 hi').1] at hi; cases hi
    | some l => exact (h.prefetches i l).2 ⟨hi, fun g => nomatch g.1⟩,
    h.next, h.parents, fun l => by rw [h.req], h.triggered⟩

theorem pathsUp (h : SameChains t t') (a f c : Nat) : KbfsPrefetcher.pathsUp t' a f c =
    KbfsPrefetcher.pathsUp t a f c :=
  pathsUp_congr (fun x _ => ⟨by rw [h.parents], fun q _ => by rw [h.prefetches]⟩) f

theorem isStored (h : SameChains t t') (l : Nat) : t'.isStored l = t.isStored l := by
  simp [BlockPrefetcher.isStored, h.prefetches, h.ptr]

theorem unfetchedAt (h : SameChains t t') (l : Nat) : t'.unfetchedAt l = t.unfetchedAt l := by
  simp [BlockPrefetcher.unfetchedAt, h.isStored, h.triggered]

theorem unfetchedBelow (h : SameChains t t') (a : Nat) :
    KbfsPrefetcher.unfetchedBelow t' a = KbfsPrefetcher.unfetchedBelow t a := by
  simp only [unfetchedBelow_eq_sum, h.next, h.unfetchedAt, h.pathsUp]

theorem chainsBounded (h : SameChains t t') (hb : ChainsBounded t) : ChainsBounded t' := by
  intro c path hp
  have he : ∀ x y, ParentEdge t' x y → ParentEdge t x y := fun x y ⟨q, hq, hy⟩ =>
    ⟨q, h.parents x ▸ hq, h.prefetches ▸ hy⟩
  rw [h.next]
  exact hb c path (hp.imp he)

end SameChains

/-! ## Stored records -/

theorem Wf.isStored {s : BlockPrefetcher A} (hs : Wf store s) {i l : Nat}
    (h : s.prefetches i = some l) : s.isStored l := by
  simp [BlockPrefetcher.isStored, hs.keyed i l h, h]

theorem isStored_iff {s : BlockPrefetcher A} {l : Nat} :
    s.isStored l ↔ s.prefetches (s.heap l).req.ptr.id = some l := by
  simp [BlockPrefetcher.isStored]

theorem Wf.lt_next {s : BlockPrefetcher A} (hs : Wf store s) {l : Nat} (h : s.isStored l) :
    l < s.next :=
  hs.allocated _ l (isStored_iff.1 h)

/-- Records on or above a stored record are stored. -/
theorem Wf.isStored_of_reach {s : BlockPrefetcher A} (hs : Wf store s) {c x : Nat}
    (hc : s.isStored c) (h : Relation.ReflTransGen (ParentEdge s) c x) : s.isStored x := by
  induction h with
  | refl => exact hc
  | tail _ he _ => obtain ⟨q, -, hq⟩ := he; exact hs.isStored hq

/-- No chain reaches a record that is not stored, but from itself. -/
theorem pathsUp_of_not_stored {s : BlockPrefetcher A} (hs : Wf store s) {a u : Nat}
    (ha : ¬s.isStored a) (hu : u ≠ a) (f : Nat) : pathsUp s a f u = 0 :=
  pathsUp_eq_zero (fun h => by
    rcases Relation.ReflTransGen.cases_tail h with h | ⟨x, -, ⟨q, -, hq⟩⟩
    · exact hu h.symm
    · exact ha (hs.isStored hq)) f

/-! ## Sums over the allocated records -/

/-- Two sums over `range n` that differ at `r < n` only. -/
theorem sum_range_ne {n r : Nat} (hr : r < n) {f g : Nat → Nat} (h : ∀ u, u ≠ r → f u = g u) :
    ∑ u ∈ Finset.range n, f u + g r = ∑ u ∈ Finset.range n, g u + f r := by
  have hm : r ∈ Finset.range n := Finset.mem_range.2 hr
  have e : ∑ u ∈ (Finset.range n).erase r, f u = ∑ u ∈ (Finset.range n).erase r, g u :=
    Finset.sum_congr rfl fun u hu => h u (Finset.ne_of_mem_erase hu)
  have hf := Finset.add_sum_erase _ f hm
  have hg := Finset.add_sum_erase _ g hm
  omega

/-! ## Triggering a record -/

/-- A write that keeps the record's parents keeps every chain. -/
theorem pathsUp_modify {t : BlockPrefetcher A} {r : Nat} {g : Prefetch A → Prefetch A}
    (hp : (g (t.heap r)).parents = (t.heap r).parents) (a f c : Nat) :
    pathsUp (t.modify r g) a f c = pathsUp t a f c :=
  pathsUp_congr (fun x _ => ⟨by by_cases hx : x = r <;> simp [hx, hp], fun _ _ => by rfl⟩) f

/-- Marking the stored, untriggered record at `r` triggered takes the chains from `r` off every
    count. -/
theorem unfetchedBelow_trigger {t : BlockPrefetcher A} (ht : Wf store t) {r : Nat}
    (hr : t.unfetchedAt r = true) {g : Prefetch A → Prefetch A}
    (hp : (g (t.heap r)).parents = (t.heap r).parents) (htr : (g (t.heap r)).subtreeTriggered = true) (a : Nat) :
    unfetchedBelow t a = unfetchedBelow (t.modify r g) a + pathsUp t a t.next r := by
  have hst : t.isStored r := by simp_all [BlockPrefetcher.unfetchedAt]
  have hU : ∀ u, u ≠ r → (t.modify r g).unfetchedAt u = t.unfetchedAt u := fun u hu => by
    simp [BlockPrefetcher.unfetchedAt, BlockPrefetcher.isStored, hu]
  have hUr : (t.modify r g).unfetchedAt r = false := by
    simp [BlockPrefetcher.unfetchedAt, htr]
  simp only [unfetchedBelow_eq_sum, modify_next, pathsUp_modify hp]
  have := sum_range_ne (ht.lt_next hst)
    (f := fun u => if (t.modify r g).unfetchedAt u then pathsUp t a t.next u else 0)
    (g := fun u => if t.unfetchedAt u then pathsUp t a t.next u else 0)
    fun u hu => by simp only [hU u hu]
  simp only [hUr, hr, if_true, Bool.false_eq_true, if_false, Nat.add_zero] at this
  omega

/-- Two states with the same unfetched records, each with the same chains up to `a`, give `a`
    the same count. -/
theorem unfetchedBelow_congr {t t' : BlockPrefetcher A} {a : Nat} (hn : t'.next = t.next)
    (hU : ∀ v, t'.unfetchedAt v = t.unfetchedAt v)
    (hN : ∀ v, t.unfetchedAt v = true → pathsUp t' a t'.next v = pathsUp t a t.next v) :
    unfetchedBelow t' a = unfetchedBelow t a := by
  simp only [unfetchedBelow_eq_sum, hU, hn]
  refine Finset.sum_congr rfl fun v _ => ?_
  split
  · have := hN v ‹_›
    rwa [hn] at this
  · rfl

theorem unfetchedBelow_next {t : BlockPrefetcher A} (ht : Wf store t) : unfetchedBelow t t.next = 0 :=
  by
  rw [unfetchedBelow_eq_sum]
  refine Finset.sum_eq_zero fun u hu => ?_
  split
  · exact pathsUp_of_not_stored ht (fun h => lt_irrefl _ (ht.lt_next h))
      (Finset.mem_range.1 hu).ne _
  · rfl

/-- Each unfetched record's chains are part of the count. -/
theorem pathsUp_le_unfetchedBelow {t : BlockPrefetcher A} (ht : Wf store t) {v : Nat}
    (hv : t.unfetchedAt v = true) (a : Nat) : pathsUp t a t.next v ≤ unfetchedBelow t a := by
  have hvs : t.isStored v := by simp_all [BlockPrefetcher.unfetchedAt]
  have h := Finset.single_le_sum (f := fun u => if t.unfetchedAt u then pathsUp t a t.next u else 0)
    (fun _ _ => Nat.zero_le _) (Finset.mem_range.2 (ht.lt_next hvs))
  simpa [hv, unfetchedBelow_eq_sum] using h

/-- A positive count has an unfetched record with a chain up to it. -/
theorem exists_of_unfetchedBelow_pos {t : BlockPrefetcher A} {a : Nat} (h : 0 < unfetchedBelow t a) :
    ∃ v, t.unfetchedAt v = true ∧ 0 < pathsUp t a t.next v := by
  rw [unfetchedBelow_eq_sum] at h
  obtain ⟨v, -, hv⟩ := Finset.exists_ne_zero_of_sum_ne_zero h.ne'
  by_cases hu : t.unfetchedAt v = true
  · rw [if_pos hu] at hv
    exact ⟨v, hu, Nat.pos_of_ne_zero hv⟩
  · rw [if_neg hu] at hv
    exact absurd rfl hv

/-! ## A new record -/

section NewRecord

variable {t : BlockPrefetcher A} {id : Nat} {pp : Prefetch A}

/-- The state after `alloc` and `setPrefetch` of a record with no parents under a new ID. -/
abbrev withRecord (t : BlockPrefetcher A) (id : Nat) (pp : Prefetch A) : BlockPrefetcher A :=
  (t.alloc pp).2.setPrefetch id t.next

theorem isStored_withRecord (hid : pp.req.ptr.id = id) (hn : t.prefetches id = none) (l : Nat) :
    (withRecord t id pp).isStored l = (t.isStored l || l == t.next) := by
  by_cases hl : l = t.next
  · simp [BlockPrefetcher.isStored, hl, hid]
  · have hiff : (withRecord t id pp).isStored l = t.isStored l := by
      by_cases he : (t.heap l).req.ptr.id = id
      · simp [BlockPrefetcher.isStored, hl, he, hn, Ne.symm hl]
      · simp [BlockPrefetcher.isStored, hl, he]
    simp [hiff, hl]

/-- The chains from a record stored before are those of `t`: no stored pointer names `id`. -/
theorem pathsUp_withRecord (ht : Wf store t) (hb : ChainsBounded t)
    (hfresh : ∀ l, t.isStored l → ∀ q ∈ allParents (t.heap l).parents, q.id ≠ id)
    {u : Nat} (hu : t.isStored u) (a : Nat) :
    pathsUp (withRecord t id pp) a (withRecord t id pp).next u = pathsUp t a t.next u := by
  rw [pathsUp_congr (s := t) (fun x hx => ?_), pathsUp_ge_next hb (by simp)]
  have hx := ht.isStored_of_reach hu hx
  have hne : x ≠ t.next := (ht.lt_next hx).ne
  refine ⟨by simp [hne], fun q hq => ?_⟩
  simp [hfresh x hx q hq]

theorem pathsUp_withRecord_self (hpp : pp.parents = []) (a : Nat) :
    pathsUp (withRecord t id pp) a (t.next + 1) t.next = if t.next = a then 1 else 0 := by
  simp [pathsUp_succ, parentSum, allParents, hpp, ptrSum_nil]

/-- A new record adds 1 at itself, when it is untriggered, to the design's count. -/
theorem unfetchedBelow_withRecord (ht : Wf store t) (hb : ChainsBounded t) (hid : pp.req.ptr.id = id)
    (hn : t.prefetches id = none) (hpp : pp.parents = [])
    (hfresh : ∀ l, t.isStored l → ∀ q ∈ allParents (t.heap l).parents, q.id ≠ id) (a : Nat) :
    unfetchedBelow (withRecord t id pp) a =
      unfetchedBelow t a + if pp.subtreeTriggered = false ∧ t.next = a then 1 else 0 := by
  rw [unfetchedBelow_eq_sum, show (withRecord t id pp).next = t.next + 1 from rfl,
    Finset.sum_range_succ, unfetchedBelow_eq_sum]
  congr 1
  · refine Finset.sum_congr rfl fun u hu => ?_
    have hne : u ≠ t.next := (Finset.mem_range.1 hu).ne
    have hU : (withRecord t id pp).unfetchedAt u = t.unfetchedAt u := by
      have hb : (u == t.next) = false := by simpa using hne
      simp [BlockPrefetcher.unfetchedAt, isStored_withRecord hid hn, hb, hne]
    rw [hU]
    split
    · rename_i h
      exact pathsUp_withRecord ht hb hfresh (by simp_all [BlockPrefetcher.unfetchedAt]) a
    · rfl
  · have hU : (withRecord t id pp).unfetchedAt t.next = !pp.subtreeTriggered := by
      simp [BlockPrefetcher.unfetchedAt, isStored_withRecord hid hn]
    rw [hU, pathsUp_withRecord_self hpp]
    cases pp.subtreeTriggered <;> simp

end NewRecord

/-! ## A new edge -/

theorem allParents_addParent_perm {n : Nat} {P : BlockPointer} :
    ∀ {ps : Parents}, P ∉ bucketOf n ps → (allParents (addParent n P ps)).Perm (P :: allParents ps)
  | [], _ => by simp [addParent, allParents]
  | (m, l) :: ps, h => by
    by_cases hm : m = n
    · simp only [bucketOf, hm, if_true] at h
      simp only [addParent, hm, if_true, h, if_false, allParents, List.flatMap_cons, List.append_assoc]
      exact List.perm_middle
    · simp only [bucketOf, hm, if_false] at h
      simp only [addParent, hm, if_false, allParents, List.flatMap_cons]
      exact ((allParents_addParent_perm h).append_left l).trans List.perm_middle

section AddEdge

variable {t : BlockPrefetcher A} {c r n : Nat} {P : BlockPointer}

/-- The state after `recordParent` adds `P` to the bucket `n` of the record at `c`. -/
abbrev withEdge (t : BlockPrefetcher A) (c n : Nat) (P : BlockPointer) : BlockPrefetcher A :=
  t.modify c fun pp => { pp with parents := addParent n P pp.parents }

theorem pathsUp_withEdge (hb : ChainsBounded t) (hb' : ChainsBounded (withEdge t c n P))
    (hP : t.prefetches P.id = some r) (hnot : P ∉ bucketOf n (t.heap c).parents)
    (hrc : ¬Relation.ReflTransGen (ParentEdge t) r c) (a u : Nat) :
    pathsUp (withEdge t c n P) a t.next u =
      pathsUp t a t.next u + pathsUp t c t.next u * pathsUp t a t.next r :=
  pathsUp_addEdge hb hb' rfl hP (by simpa using allParents_addParent_perm hnot)
    (fun x hx => by simp [hx]) hrc a u

/-- The new edge adds, at `a`, the design's count of `c` once per chain from `r` to `a`. -/
theorem unfetchedBelow_withEdge (hb : ChainsBounded t) (hb' : ChainsBounded (withEdge t c n P))
    (hP : t.prefetches P.id = some r) (hnot : P ∉ bucketOf n (t.heap c).parents)
    (hrc : ¬Relation.ReflTransGen (ParentEdge t) r c) (a : Nat) :
    unfetchedBelow (withEdge t c n P) a =
      unfetchedBelow t a + unfetchedBelow t c * pathsUp t a t.next r := by
  have hU : ∀ v, (withEdge t c n P).unfetchedAt v = t.unfetchedAt v := fun v => by
    by_cases hv : v = c <;> simp [BlockPrefetcher.unfetchedAt, BlockPrefetcher.isStored, hv]
  simp only [unfetchedBelow_eq_sum, hU, pathsUp_withEdge hb hb' hP hnot hrc, Finset.sum_mul,
    ← Finset.sum_add_distrib, modify_next]
  refine Finset.sum_congr rfl fun v _ => ?_
  split <;> simp

end AddEdge

end KbfsPrefetcher
