import KbfsPrefetcher.Schedule
import Mathlib

/-
  Counting chains of parent edges.

  `pathsUp s a fuel c` (StaleParents) counts the chains of parent edges from the record at `c`
  up to the record at `a`, pointer by pointer; `run`'s design comment makes a record's
  `subtreeBlockCount` the sum of these counts over the untriggered records (`unfetchedBelow`).
  This file gives `pathsUp` the algebra the count invariant of `SteadyCounts` needs.

  Model: `parentSum s F c` is the step of `pathsUp`, the sum of `F` over the records the parent
  pointers of `c` name. `ChainsBounded s` says every chain has at most `next` edges, as on every
  well-formed state over an acyclic store (`Wf.chainsBounded`).

  Proved:
  * `pathsUp_stable`: fuel past the longest chain changes nothing, so on a bounded state
    `pathsUp … s.next` satisfies its own recursion (`pathsUp_next_eq`) and is its only
    solution (`eq_pathsUp_of_rec`).
  * `pathsUp_congr`: the count from `c` depends only on the records on or above `c` (their
    parent pointers, up to order, and the records these name).
  * `pos_pathsUp` and `pathsUp_eq_zero`: the count is positive exactly when a chain exists.
  * `pathsUp_addEdge`: a new parent pointer from `c` to `r`, when no chain leads from `r` to `c`,
    adds to the count from `u` to `a` the chains through the new edge, `N(u,c) * N(r,a)`.
  * `unfetchedBelow_eq_sum`: the design's count as a sum over every allocated location.

  A change to the walks or to `request` touches none of this: it reads the parent maps and
  `prefetches` only.
-/

namespace KbfsPrefetcher

open BlockPrefetcher

variable {A : Type}

/-! ## The step of `pathsUp` -/

/-- The sum of `F` over the records a list of parent pointers names; a pointer to an ID
    without a record adds 0. -/
def ptrSum (s : BlockPrefetcher A) (F : Nat → Nat) (L : List BlockPointer) : Nat :=
  (L.map fun q =>
    match s.prefetches q.id with
    | none => 0
    | some p => F p).foldr (· + ·) 0

/-- The step of `pathsUp`: `ptrSum` over the parent pointers of the record at `c`. -/
def parentSum (s : BlockPrefetcher A) (F : Nat → Nat) (c : Nat) : Nat :=
  ptrSum s F (allParents (s.heap c).parents)

theorem ptrSum_nil (s : BlockPrefetcher A) (F : Nat → Nat) : ptrSum s F [] = 0 := rfl

theorem ptrSum_cons {s : BlockPrefetcher A} (F : Nat → Nat) {q : BlockPointer} {p : Nat}
    (hp : s.prefetches q.id = some p) (L : List BlockPointer) :
    ptrSum s F (q :: L) = F p + ptrSum s F L := by
  simp only [ptrSum, List.map_cons, List.foldr_cons, hp]

theorem ptrSum_append (s : BlockPrefetcher A) (F : Nat → Nat) (L L' : List BlockPointer) :
    ptrSum s F (L ++ L') = ptrSum s F L + ptrSum s F L' := by
  induction L with
  | nil => simp [ptrSum_nil]
  | cons q L ih =>
    simp only [ptrSum, List.cons_append, List.map_cons, List.foldr_cons] at ih ⊢
    rw [ih, Nat.add_assoc]

theorem pathsUp_succ (s : BlockPrefetcher A) (a f c : Nat) :
    pathsUp s a (f + 1) c = (if c = a then 1 else 0) + parentSum s (pathsUp s a f) c := rfl

theorem pathsUp_zero (s : BlockPrefetcher A) (a c : Nat) :
    pathsUp s a 0 c = if c = a then 1 else 0 := rfl

/-- `parentSum` as a list sum over the parent pointers. -/
theorem parentSum_eq_sum (s : BlockPrefetcher A) (F : Nat → Nat) (c : Nat) :
    parentSum s F c = ((allParents (s.heap c).parents).map fun q => (s.prefetches q.id).elim 0 F).sum := by
  unfold parentSum ptrSum
  rw [← List.sum]
  congr 1
  exact List.map_congr_left fun q _ => by cases s.prefetches q.id <;> rfl

theorem parentSum_congr {s : BlockPrefetcher A} {F G : Nat → Nat} {c : Nat}
    (h : ∀ p, ParentEdge s c p → F p = G p) : parentSum s F c = parentSum s G c := by
  simp only [parentSum_eq_sum]
  congr 1
  refine List.map_congr_left fun q hq => ?_
  cases hp : s.prefetches q.id with
  | none => rfl
  | some p => exact h p ⟨q, hq, hp⟩

theorem parentSum_add (s : BlockPrefetcher A) (F G : Nat → Nat) (c : Nat) :
    parentSum s (fun p => F p + G p) c = parentSum s F c + parentSum s G c := by
  simp only [parentSum_eq_sum, ← List.sum_map_add]
  congr 1
  exact List.map_congr_left fun q _ => by cases s.prefetches q.id <;> rfl

theorem parentSum_mul_right (s : BlockPrefetcher A) (F : Nat → Nat) (k c : Nat) :
    parentSum s (fun p => F p * k) c = parentSum s F c * k := by
  simp only [parentSum_eq_sum, ← List.sum_map_mul_right]
  congr 1
  exact List.map_congr_left fun q _ => by cases s.prefetches q.id <;> simp

theorem le_parentSum {s : BlockPrefetcher A} (F : Nat → Nat) {c p : Nat} (h : ParentEdge s c p) :
    F p ≤ parentSum s F c := by
  obtain ⟨q, hq, hp⟩ := h
  rw [parentSum_eq_sum]
  exact List.le_sum_of_mem (List.mem_map.2 ⟨q, hq, by rw [hp]; rfl⟩)

theorem parentSum_eq_zero {s : BlockPrefetcher A} {F : Nat → Nat} {c : Nat}
    (h : ∀ p, ParentEdge s c p → F p = 0) : parentSum s F c = 0 := by
  rw [parentSum_congr h, parentSum_eq_sum]
  exact List.sum_eq_zero fun x hx => by
    obtain ⟨q, -, rfl⟩ := List.mem_map.1 hx
    cases s.prefetches q.id <;> rfl

/-- Two records whose parent pointers agree up to order, naming the same records, give the
    same sum. -/
theorem parentSum_perm {s s' : BlockPrefetcher A} (F : Nat → Nat) {c c' : Nat}
    (hp : (allParents (s'.heap c').parents).Perm (allParents (s.heap c).parents))
    (hq : ∀ q ∈ allParents (s.heap c).parents, s'.prefetches q.id = s.prefetches q.id) :
    parentSum s' F c' = parentSum s F c := by
  simp only [parentSum_eq_sum]
  rw [(hp.map _).sum_eq]
  congr 1
  exact List.map_congr_left fun q h => by rw [hq q h]

/-- One more parent pointer, naming the record at `r`, adds `F r`. -/
theorem parentSum_cons {s s' : BlockPrefetcher A} (F : Nat → Nat) {c c' r : Nat} {P : BlockPointer}
    (hp : (allParents (s'.heap c').parents).Perm (P :: allParents (s.heap c).parents))
    (hP : s'.prefetches P.id = some r)
    (hq : ∀ q ∈ allParents (s.heap c).parents, s'.prefetches q.id = s.prefetches q.id) :
    parentSum s' F c' = F r + parentSum s F c := by
  simp only [parentSum_eq_sum]
  rw [(hp.map _).sum_eq, List.map_cons, List.sum_cons, hP]
  congr 1
  congr 1
  exact List.map_congr_left fun q h => by rw [hq q h]

/-! ## Fuel -/

/-- Every chain of parent edges has at most `next` edges. -/
def ChainsBounded (s : BlockPrefetcher A) : Prop := ∀ c, DepthBelow (s.next + 1) c s

theorem Wf.chainsBounded {store : Nat → Block} {s : BlockPrefetcher A} (hs : Wf store s)
    (hst : StoreAcyclic store) : ChainsBounded s :=
  depthBelow_walkFuel (hs.parentEdge_acyclic hst) hs.allocated

theorem DepthBelow.not_parentEdge {s : BlockPrefetcher A} {c p : Nat} (hd : DepthBelow 1 c s) :
    ¬ParentEdge s c p :=
  fun he => absurd (hd [p] (.cons he .nil)) (lt_irrefl 1)

/-- Fuel past the longest chain from `c` changes nothing. -/
theorem pathsUp_stable {s : BlockPrefetcher A} {a : Nat} :
    ∀ {f c : Nat}, DepthBelow (f + 1) c s → ∀ g, f ≤ g → pathsUp s a g c = pathsUp s a f c
  | 0, c, hd, 0, _ => rfl
  | 0, c, hd, g + 1, _ => by
    rw [pathsUp_succ, parentSum_eq_zero fun p hp => absurd hp hd.not_parentEdge]
    rfl
  | f + 1, c, hd, g + 1, hfg => by
    rw [pathsUp_succ, pathsUp_succ,
      parentSum_congr fun p hp => pathsUp_stable (hd.parent hp) g (by omega)]
  | f + 1, _, _, 0, hfg => absurd hfg (by omega)

/-- On a bounded state the count at fuel `next` satisfies its recursion. -/
theorem pathsUp_next_eq {s : BlockPrefetcher A} (hb : ChainsBounded s) (a c : Nat) :
    pathsUp s a s.next c = (if c = a then 1 else 0) + parentSum s (pathsUp s a s.next) c := by
  rw [← pathsUp_succ, pathsUp_stable (hb c) _ (Nat.le_succ _)]

theorem pathsUp_ge_next {s : BlockPrefetcher A} (hb : ChainsBounded s) {f : Nat} (hf : s.next ≤ f)
    (a c : Nat) : pathsUp s a f c = pathsUp s a s.next c :=
  pathsUp_stable (hb c) f hf

/-- On a bounded state `pathsUp … s.next` is the only solution of its recursion. -/
theorem eq_pathsUp_of_rec {s : BlockPrefetcher A} (hb : ChainsBounded s) {a : Nat} {G : Nat → Nat}
    (hG : ∀ x, G x = (if x = a then 1 else 0) + parentSum s G x) (c : Nat) :
    G c = pathsUp s a s.next c := by
  suffices ∀ n c, DepthBelow n c s → G c = pathsUp s a s.next c from this _ c (hb c)
  intro n
  induction n with
  | zero => exact fun c hd => absurd (hd [] .nil) (lt_irrefl 0)
  | succ n ih =>
    intro c hd
    rw [hG, pathsUp_next_eq hb, parentSum_congr fun p hp => ih p (hd.parent hp)]

/-! ## Locality and positivity -/

/-- The count from `c` depends only on the records on or above `c`: their parent pointers, up
    to order, and the records these name. -/
theorem pathsUp_congr {s s' : BlockPrefetcher A} {a c : Nat}
    (h : ∀ x, Relation.ReflTransGen (ParentEdge s) c x →
      (allParents (s'.heap x).parents).Perm (allParents (s.heap x).parents) ∧
      ∀ q ∈ allParents (s.heap x).parents, s'.prefetches q.id = s.prefetches q.id) (f : Nat) :
    pathsUp s' a f c = pathsUp s a f c := by
  induction f generalizing c with
  | zero => rfl
  | succ f ih =>
    obtain ⟨hp, hq⟩ := h c .refl
    rw [pathsUp_succ, pathsUp_succ, parentSum_perm _ hp hq]
    exact congrArg _ (parentSum_congr fun p he => ih fun x hx => h x (.head he hx))

/-- A chain from `c` to `a` within the fuel makes the count positive. -/
theorem pos_pathsUp {s : BlockPrefetcher A} {a c : Nat} (h : Relation.ReflTransGen (ParentEdge s) c a) :
    ∀ {f}, DepthBelow (f + 1) c s → 0 < pathsUp s a f c := by
  induction h using Relation.ReflTransGen.head_induction_on with
  | refl => intro f _; cases f <;> simp [pathsUp_zero, pathsUp_succ]
  | head he _ ih =>
    intro f hd
    cases f with
    | zero => exact absurd he hd.not_parentEdge
    | succ f =>
      rw [pathsUp_succ]
      exact Nat.lt_add_left _ (lt_of_lt_of_le (ih (hd.parent he)) (le_parentSum _ he))

/-- Without a chain from `c` to `a` the count is 0. -/
theorem pathsUp_eq_zero {s : BlockPrefetcher A} {a c : Nat}
    (h : ¬Relation.ReflTransGen (ParentEdge s) c a) (f : Nat) : pathsUp s a f c = 0 := by
  induction f generalizing c with
  | zero => rw [pathsUp_zero, if_neg fun e : c = a => h (e ▸ .refl)]
  | succ f ih =>
    rw [pathsUp_succ, if_neg fun e : c = a => h (e ▸ .refl),
      parentSum_eq_zero fun p he => ih fun hp => h (.head he hp)]

theorem reflTransGen_of_pathsUp_pos {s : BlockPrefetcher A} {a c f : Nat}
    (h : 0 < pathsUp s a f c) : Relation.ReflTransGen (ParentEdge s) c a :=
  by_contra fun hn => absurd (pathsUp_eq_zero hn f) h.ne'

/-- On a bounded state exactly one chain leads from a record to itself. -/
theorem pathsUp_self {s : BlockPrefetcher A} (hb : ChainsBounded s)
    (hac : ∀ l, ¬Relation.TransGen (ParentEdge s) l l) (c : Nat) : pathsUp s c s.next c = 1 := by
  rw [pathsUp_next_eq hb, if_pos rfl,
    parentSum_eq_zero fun p he => pathsUp_eq_zero (fun hp => hac c (.head' he hp)) _]

/-! ## A new edge -/

section AddEdge

variable {s s' : BlockPrefetcher A} {c r : Nat} {P : BlockPointer}

/-- A new parent pointer `P` of the record at `c`, naming the record at `r` from which no chain
    leads to `c`, adds the chains through it: `N(u,c) * N(r,a)` more from `u` to `a`. -/
theorem pathsUp_addEdge (hb : ChainsBounded s) (hb' : ChainsBounded s')
    (hpre : s'.prefetches = s.prefetches) (hP : s.prefetches P.id = some r)
    (hc : (allParents (s'.heap c).parents).Perm (P :: allParents (s.heap c).parents))
    (hother : ∀ x, x ≠ c → allParents (s'.heap x).parents = allParents (s.heap x).parents)
    (hrc : ¬Relation.ReflTransGen (ParentEdge s) r c) (a u : Nat) :
    pathsUp s' a s'.next u = pathsUp s a s.next u + pathsUp s c s.next u * pathsUp s a s.next r := by
  refine (eq_pathsUp_of_rec hb' (G := fun x => pathsUp s a s.next x +
    pathsUp s c s.next x * pathsUp s a s.next r) (fun x => ?_) u).symm
  have hq : ∀ q ∈ allParents (s.heap x).parents, s'.prefetches q.id = s.prefetches q.id :=
    fun q _ => by rw [hpre]
  have hsplit : parentSum s (fun y => pathsUp s a s.next y + pathsUp s c s.next y *
      pathsUp s a s.next r) x = parentSum s (pathsUp s a s.next) x +
        parentSum s (pathsUp s c s.next) x * pathsUp s a s.next r := by
    rw [parentSum_add, parentSum_mul_right]
  have hxa := pathsUp_next_eq hb a x
  have hxc := pathsUp_next_eq hb c x
  by_cases hx : x = c
  · subst hx
    rw [if_pos rfl] at hxc
    rw [parentSum_cons _ hc (by rw [hpre, hP]) hq, hsplit]
    beta_reduce
    rw [pathsUp_eq_zero hrc, hxa, hxc]
    ring
  · rw [if_neg hx, zero_add] at hxc
    rw [parentSum_perm _ (by rw [hother x hx]) hq, hsplit]
    beta_reduce
    rw [hxa, hxc]
    ring

end AddEdge

/-! ## The design's count as a sum -/

/-- Whether the record at `u` is stored and not yet triggered: one unfetched block. -/
def BlockPrefetcher.unfetchedAt (s : BlockPrefetcher A) (u : Nat) : Bool :=
  s.isStored u && !(s.heap u).subtreeTriggered

theorem foldr_filter_range (p : Nat → Bool) (g : Nat → Nat) (n : Nat) :
    (((List.range n).filter p).map g).foldr (· + ·) 0 =
      ∑ u ∈ Finset.range n, if p u then g u else 0 := by
  induction n with
  | zero => rfl
  | succ n ih =>
    rw [Finset.sum_range_succ, ← ih, List.range_succ, List.filter_append, List.map_append]
    show List.sum _ = List.sum _ + _
    rw [List.sum_append]
    cases hp : p n <;> simp [List.filter, hp]

theorem unfetchedBelow_eq_sum (s : BlockPrefetcher A) (a : Nat) :
    unfetchedBelow s a =
      ∑ u ∈ Finset.range s.next, if s.unfetchedAt u then pathsUp s a s.next u else 0 :=
  foldr_filter_range _ _ _

end KbfsPrefetcher
