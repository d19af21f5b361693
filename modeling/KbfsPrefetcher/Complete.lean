import KbfsPrefetcher.Enumerate

/-
  A fetched tail block, on a state with the design's counts.

  Model: `finishRequest` with the record `R` of a tail block walks `completePrefetch` with
  `R`'s count up every chain of parent edges from `R`. On a state with `SteadyCounts`, the
  design's count of `R` is its own chain alone (a tail block lists no child, so no parent
  pointer names it), so `R` is untriggered with count 1 (`tail_count`), and the walk is a
  shift by `-1` once per chain from `R` (`applyToParentsRecursive_shifted`), within budget
  (`SteadyCounts.budget`).

  Proved: `SteadyCounts.complete`. The walk removes exactly the records whose count it brings
  to 0: those every unfetched block below is `R`'s. The chains from every other unfetched
  record avoid them, so each surviving count is again the design's, positive, and every
  pointer of a survivor names a survivor. Counting chains with their multiplicity, this holds
  for stores with diamonds too, which the design comment assumes away. The argument compares
  the state after the walk with `R` triggered in place (`unfetchedBelow_trigger`), which has
  the same unfetched records and the same chains from them (`unfetchedBelow_congr`).
  `finishRequest_steady` assembles the request case of a tail block.
-/

namespace KbfsPrefetcher

open BlockPrefetcher

variable {A : Type} {store : Nat → Block}

theorem isStored_of_unfetchedAt {t : BlockPrefetcher A} {v : Nat} (h : t.unfetchedAt v = true) :
    t.isStored v := by
  simp_all [BlockPrefetcher.unfetchedAt]

namespace SteadyCounts

variable {s t : BlockPrefetcher A}

theorem sameChains (h : SteadyCounts s) (hs : SameChains s t)
    (hc : ∀ l, (t.heap l).subtreeBlockCount = (s.heap l).subtreeBlockCount) : SteadyCounts t where
  count l hl := by rw [hs.isStored] at hl; rw [hc, hs.unfetchedBelow]; exact h.count l hl
  pos l hl := by rw [hs.isStored] at hl; rw [hc]; exact h.pos l hl
  linked := h.linked.sameChains hs

/-- A walk of `-1` shifts up the chains from an unfetched record keeps every count
    nonnegative: each count holds the chains from that record. -/
theorem budget (h : SteadyCounts t) (ht : Wf store t) {R : Nat} (hR : t.unfetchedAt R = true) :
    Budget (-1) t fun l => pathsUp t l t.next R := fun _ l hl => by
  beta_reduce at hl ⊢
  have hl' := ht.isStored_of_reach (isStored_of_unfetchedAt hR) (reflTransGen_of_pathsUp_pos hl)
  have := pathsUp_le_unfetchedBelow ht hR l
  rw [h.count l hl']
  omega

/-- The record of a tail block is unfetched, with count 1. -/
theorem tail_count (h : SteadyCounts t) (ht : Wf store t) (hst : StoreAcyclic store) {id R : Nat}
    (hR : t.prefetches id = some R) (htail : (store id).isTail = true) :
    t.unfetchedAt R = true ∧ (t.heap R).subtreeBlockCount = 1 := by
  have hRs := ht.isStored hR
  have hnil : (store (t.heap R).req.ptr.id).childPtrs = [] := by
    rw [ht.keyed _ _ hR]
    simpa [Block.isTail_eq_isEmpty] using htail
  have hno : ∀ x, ¬ParentEdge t x R := fun x hx => by
    obtain ⟨p, hp, -⟩ := ht.childOf_of_parentEdge hx
    rw [hnil] at hp
    cases hp
  have hN : ∀ u, u ≠ R → pathsUp t R t.next u = 0 := fun u hu => pathsUp_eq_zero (fun h => by
    rcases Relation.ReflTransGen.cases_tail h with h | ⟨x, -, hx⟩
    · exact hu h.symm
    · exact hno x hx) _
  have hU : unfetchedBelow t R = if t.unfetchedAt R then 1 else 0 := by
    rw [unfetchedBelow_eq_sum, Finset.sum_eq_single R (fun u _ hu => by simp [hN u hu])
      (fun h => absurd (Finset.mem_range.2 (ht.lt_next hRs)) h),
      pathsUp_self (ht.chainsBounded hst) (ht.parentEdge_acyclic hst)]
  have hc := h.count R hRs
  have hp := h.pos R hRs
  cases hu : t.unfetchedAt R
  · rw [hU, hu] at hc; simp at hc; omega
  · rw [hU, hu] at hc; exact ⟨rfl, by simpa using hc⟩

/-- A tree with the design's counts in which no record waits for its block is empty: a stored
    record counts at least one waiting record below it. -/
theorem drained (h : SteadyCounts t) (ht : Wf store t) (hu : ∀ l, t.unfetchedAt l = false) (id : Nat) :
    t.prefetches id = none := by
  cases hid : t.prefetches id with
  | none => rfl
  | some l =>
    have hl := ht.isStored hid
    have hpos := h.pos l hl
    rw [h.count l hl] at hpos
    obtain ⟨v, hv, -⟩ := exists_of_unfetchedBelow_pos (by exact_mod_cast hpos)
    rw [hu v] at hv
    cases hv

end SteadyCounts

/-! ## The walk completing a tail block -/

section Complete

variable {t u : BlockPrefetcher A} {R : Nat} {solo : Nat → Bool}

/-- `t` with the record at `R` marked triggered in place: the state the completion is compared
    with. -/
abbrev triggeredAt (t : BlockPrefetcher A) (R : Nat) : BlockPrefetcher A :=
  t.modify R fun pp => { pp with subtreeTriggered := true }

theorem isStored_triggeredAt (l : Nat) : (triggeredAt t R).isStored l = t.isStored l :=
  isStored_modify rfl l

theorem pathsUp_triggeredAt (a f c : Nat) : pathsUp (triggeredAt t R) a f c = pathsUp t a f c :=
  pathsUp_modify rfl a f c

theorem unfetchedAt_triggeredAt {v : Nat} :
    (triggeredAt t R).unfetchedAt v = true ↔ t.unfetchedAt v = true ∧ v ≠ R := by
  by_cases hv : v = R <;> simp [BlockPrefetcher.unfetchedAt, isStored_triggeredAt, hv]

theorem unfetchedBelow_triggeredAt (ht : Wf store t) (hR : t.unfetchedAt R = true) (a : Nat) :
    unfetchedBelow t a = unfetchedBelow (triggeredAt t R) a + pathsUp t a t.next R :=
  unfetchedBelow_trigger ht hR rfl rfl a

/-- The records the completion removes: those with a chain from `R` and no other unfetched
    record below. -/
theorem gone_iff (hc : SteadyCounts t) (ht : Wf store t) (hR : t.unfetchedAt R = true) {l : Nat}
    (hl : t.isStored l) :
    Gone (-1) (some solo) t (fun l => pathsUp t l t.next R) l ↔
      0 < pathsUp t l t.next R ∧ unfetchedBelow (triggeredAt t R) l = 0 := by
  have hU := unfetchedBelow_triggeredAt ht hR l
  have := hc.count l hl
  simp only [Gone, Option.isSome_some, true_and]
  omega

/-- With `R` triggered in place, a record above an unfetched record counts at least 1. -/
theorem one_le_of_reach (hst : StoreAcyclic store) (ht : Wf store t) {v p : Nat}
    (hv : (triggeredAt t R).unfetchedAt v = true) (hvp : Relation.ReflTransGen (ParentEdge t) v p) :
    1 ≤ unfetchedBelow (triggeredAt t R) p := by
  have h₁ : pathsUp (triggeredAt t R) p (triggeredAt t R).next v ≤ unfetchedBelow (triggeredAt t R) p :=
    pathsUp_le_unfetchedBelow (ht.modify rfl rfl rfl) hv p
  rw [pathsUp_triggeredAt, modify_next] at h₁
  have := pos_pathsUp hvp (ht.chainsBounded hst v)
  omega

variable (hst : StoreAcyclic store) (hc : SteadyCounts t) (ht : Wf store t) (hR : t.unfetchedAt R = true)
  (h1 : (t.heap R).subtreeBlockCount = 1)
  (hsh : Shifted (-1) (some solo) t (fun l => pathsUp t l t.next R) u)

include hst hc ht hR in
/-- A record above an unfetched record other than `R` stays. -/
theorem not_gone_of_reach {v p : Nat} (hv : (triggeredAt t R).unfetchedAt v = true)
    (hvp : Relation.ReflTransGen (ParentEdge t) v p) (hp : t.isStored p) :
    ¬Gone (-1) (some solo) t (fun l => pathsUp t l t.next R) p := fun hg => by
  have := one_le_of_reach hst ht hv hvp
  have := ((gone_iff hc ht hR hp).1 hg).2
  omega

include hsh in
theorem isStored_completed (l : Nat) :
    u.isStored l = true ↔ t.isStored l = true ∧ ¬Gone (-1) (some solo) t (fun l => pathsUp t l t.next R) l := by
  simp only [BlockPrefetcher.isStored, hsh.req, decide_eq_true_eq, hsh.prefetches]

include hst hc ht hR h1 hsh in
/-- After the completion the unfetched records are those of `t` with `R` triggered. -/
theorem unfetchedAt_completed (v : Nat) : u.unfetchedAt v = (triggeredAt t R).unfetchedAt v := by
  rw [Bool.eq_iff_iff, unfetchedAt_triggeredAt]
  simp only [BlockPrefetcher.unfetchedAt, Bool.and_eq_true, Bool.not_eq_true', hsh.triggered,
    isStored_completed hsh]
  constructor
  · rintro ⟨⟨hvs, hng⟩, htr⟩
    refine ⟨⟨hvs, htr⟩, fun hv => hng ?_⟩
    subst hv
    have hself := pathsUp_self (ht.chainsBounded hst) (ht.parentEdge_acyclic hst) v
    refine ⟨rfl, ?_, ?_⟩ <;> beta_reduce <;> simp [h1, hself]
  · rintro ⟨⟨hvs, htr⟩, hv⟩
    have h₁ : (triggeredAt t R).unfetchedAt v = true :=
      unfetchedAt_triggeredAt.2 ⟨by simp [BlockPrefetcher.unfetchedAt, hvs, htr], hv⟩
    exact ⟨⟨hvs, not_gone_of_reach hst hc ht hR h₁ .refl hvs⟩, htr⟩

include hst hc ht hR hsh in
/-- The chains from an unfetched record avoid every removed record. -/
theorem pathsUp_completed {v : Nat} (hv : (triggeredAt t R).unfetchedAt v = true) (a : Nat) :
    pathsUp u a u.next v = pathsUp (triggeredAt t R) a (triggeredAt t R).next v := by
  have hvs := isStored_of_unfetchedAt (unfetchedAt_triggeredAt.1 hv).1
  rw [pathsUp_triggeredAt, hsh.next, modify_next]
  refine pathsUp_congr (fun x hx => ⟨by rw [hsh.parents], fun q hq => ?_⟩) t.next
  obtain ⟨p, hp, -⟩ := hc.linked.live x (ht.isStored_of_reach hvs hx) q hq
  rw [hp, hsh.prefetches_of_not_gone hp
    (not_gone_of_reach hst hc ht hR hv (hx.tail ⟨q, hq, hp⟩) (ht.isStored hp))]

include hst hc ht hR h1 hsh in
/-- The completion of a tail block's record keeps the design's counts. -/
theorem SteadyCounts.complete : SteadyCounts u := by
  have hUB : ∀ a, unfetchedBelow u a = unfetchedBelow (triggeredAt t R) a := fun a =>
    unfetchedBelow_congr hsh.next (unfetchedAt_completed hst hc ht hR h1 hsh) fun v hv =>
      pathsUp_completed hst hc ht hR hsh hv a
  have hcount : ∀ l, u.isStored l → (u.heap l).subtreeBlockCount = unfetchedBelow u l := fun l hl => by
    have hU := unfetchedBelow_triggeredAt ht hR l
    have := hc.count l ((isStored_completed hsh l).1 hl).1
    rw [hsh.count, hUB]
    omega
  have hpos : ∀ l, u.isStored l → 0 < (u.heap l).subtreeBlockCount := fun l hl => by
    obtain ⟨hlt, hng⟩ := (isStored_completed hsh l).1 hl
    rw [gone_iff hc ht hR hlt] at hng
    have hU := unfetchedBelow_triggeredAt ht hR l
    have := hc.count l hlt
    have := hc.pos l hlt
    rw [hcount l hl, hUB]
    rcases Nat.eq_zero_or_pos (pathsUp t l t.next R) with hz | hz
    · omega
    · have := Nat.pos_of_ne_zero fun h0 => hng ⟨hz, h0⟩
      omega
  refine ⟨hcount, hpos, fun l hl q hq => ?_, fun l hl => ?_⟩
  · have hlt := ((isStored_completed hsh l).1 hl).1
    rw [hsh.parents] at hq
    obtain ⟨p, hp, htp⟩ := hc.linked.live l hlt q hq
    have hl' := hpos l hl
    rw [hcount l hl, hUB] at hl'
    obtain ⟨v, hv, hvl⟩ := exists_of_unfetchedBelow_pos (by exact_mod_cast hl')
    rw [pathsUp_triggeredAt, modify_next] at hvl
    exact ⟨p, hsh.prefetches_of_not_gone hp (not_gone_of_reach hst hc ht hR hv
      ((reflTransGen_of_pathsUp_pos hvl).tail ⟨q, hq, hp⟩) (ht.isStored hp)),
      by rw [hsh.triggered]; exact htp⟩
  · rw [hsh.parents]; exact hc.linked.full l ((isStored_completed hsh l).1 hl).1

include hst hc ht in
/-- The walk completing a tail block's record: the record is unfetched with count 1, and the
    walk is a shift by `-1` once per chain from it. -/
theorem finishRequest_shifted {req : PrefetchRequest A} (hw : t.prefetches req.ptr.id = some R)
    (htail : (store req.ptr.id).isTail = true) :
    t.unfetchedAt R = true ∧ (t.heap R).subtreeBlockCount = 1 ∧ ∃ u,
      finishRequest req solo (some R) t = .ok u ∧ Shifted (-1) (some solo) t (fun l => pathsUp t l t.next R) u := by
  obtain ⟨hR, h1⟩ := hc.tail_count ht hst hw htail
  obtain ⟨u, hu, hsh, -⟩ := applyToParentsRecursive_shifted (completePrefetch_shiftFn one_pos solo)
    (fun _ => by norm_num) t.next req.ptr.id R t ht hw (ht.chainsBounded hst R)
    (hc.linked.walkLive ht (isStored_of_unfetchedAt hR)) (hc.budget ht hR)
  refine ⟨hR, h1, u, ?_, hsh⟩
  simp only [finishRequest, h1]
  rw [if_neg (by norm_num)]
  exact hu

include hst hc ht in
/-- The request case of a fetched tail block keeps the design's counts and ends normally. -/
theorem finishRequest_steady {req : PrefetchRequest A} {waiting : Option Nat}
    (hw : t.prefetches req.ptr.id = waiting) (htail : (store req.ptr.id).isTail = true) :
    (finishRequest req solo waiting t).Holds (fun _ => False) SteadyCounts := by
  cases waiting with
  | none =>
    simp only [finishRequest, Except.Holds.pure_iff]
    split
    · exact hc.sameChains (.emit _ _) fun _ => rfl
    · exact hc
  | some R =>
    obtain ⟨hR, h1, u, hu, hsh⟩ := finishRequest_shifted hst hc ht hw htail
    rw [hu]
    exact SteadyCounts.complete hst hc ht hR h1 hsh

end Complete

end KbfsPrefetcher
