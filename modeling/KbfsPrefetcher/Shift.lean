import KbfsPrefetcher.Paths

/-
  What a walk of count shifts does, on a state where every pointer it meets resolves.

  Model: `decrementPrefetch`, `addSubtreeBlocks n` and `completePrefetch n solo` (`n > 0`)
  add a fixed `δ` to the count of the record they are applied to, and `completePrefetch` also
  removes a record its shift brings to 0 (`ShiftFn`). `Shifted δ rm t D u` says what `D l`
  such applications at each `l` did to `t`: counts moved by `δ * D l`, and with
  `rm = some solo` the records brought to 0 (`Gone`) left `prefetches` and, they alone, were
  written to the caches as finished, those whose solo retrieval `solo` lets succeed; parent
  maps, requests and triggered flags are untouched. `Live t loc`: every
  pointer of a record on or above `loc` names a stored record and no bucket there is empty, so
  a walk from `loc` drops nothing. `Budget` says that the applications planned keep every count
  nonnegative.

  Proved: `applyToParentsRecursive_shifted`. From a live record whose walk stays within its
  budget, `applyToParentsRecursive` ends normally and applies the shift once per chain of
  parent edges, `pathsUp t l fuel loc` times at each `l`. The walk visits a record again only
  while chains through it remain, so a record leaves exactly when its last application brings
  it to 0, and no later lookup misses it.

  The proof follows the walk: `visitParents_shifted` is the loop over one bucket,
  `visitBuckets_shifted` the loop over the buckets, each hop composed with `Shifted.trans`.
  A change to one of the three functions touches its own `ShiftFn` lemma only.
-/

namespace KbfsPrefetcher

open BlockPrefetcher

variable {A : Type} {store : Nat → Block} {δ : Int} {rm : Option (Nat → Bool)}

/-- With `rm = some solo`, the applications `D` bring the record at `l` to 0 and it leaves. -/
def Gone (δ : Int) (rm : Option (Nat → Bool)) (t : BlockPrefetcher A) (D : Nat → Nat) (l : Nat) : Prop :=
  rm.isSome ∧ 0 < D l ∧ (t.heap l).subtreeBlockCount + δ * D l = 0

/-- `u` is `t` after `D l` shifts by `δ` at each record `l`. -/
structure Shifted (δ : Int) (rm : Option (Nat → Bool)) (t : BlockPrefetcher A) (D : Nat → Nat)
    (u : BlockPrefetcher A) : Prop where
  next : u.next = t.next
  parents : ∀ l, (u.heap l).parents = (t.heap l).parents
  req : ∀ l, (u.heap l).req = (t.heap l).req
  triggered : ∀ l, (u.heap l).subtreeTriggered = (t.heap l).subtreeTriggered
  count : ∀ l, (u.heap l).subtreeBlockCount = (t.heap l).subtreeBlockCount + δ * D l
  prefetches : ∀ i l, u.prefetches i = some l ↔ t.prefetches i = some l ∧ ¬Gone δ rm t D l
  finished : ∀ i, u.finished i = true ↔
    t.finished i = true ∨ rm.any (· i) ∧ ∃ l, t.prefetches i = some l ∧ Gone δ rm t D l

/-- The applications planned, `E l` at each record, keep every count nonnegative. -/
def Budget (δ : Int) (t : BlockPrefetcher A) (E : Nat → Nat) : Prop :=
  δ < 0 → ∀ l, 0 < E l → 0 ≤ (t.heap l).subtreeBlockCount + δ * E l

/-- Every pointer of a record on or above `loc` names a stored record, and no bucket there is
    empty. -/
def Live (t : BlockPrefetcher A) (loc : Nat) : Prop :=
  ∀ x, Relation.ReflTransGen (ParentEdge t) loc x →
    (∀ q ∈ allParents (t.heap x).parents, (t.prefetches q.id).isSome) ∧
      ∀ b ∈ (t.heap x).parents, b.2 ≠ []

/-- A function a walk applies: at a stored record of a well-formed state, within budget, one
    shift by `δ`, and the state stays well formed. -/
def ShiftFn (store : Nat → Block) (δ : Int) (rm : Option (Nat → Bool)) (f : WalkFn A Nat) : Prop :=
  ∀ k l t, Wf store t → t.prefetches k = some l → (δ < 0 → 0 ≤ (t.heap l).subtreeBlockCount + δ) →
    ∃ u, f k l t = .ok u ∧ Shifted δ rm t (fun x => if x = l then 1 else 0) u ∧ Wf store u

/-! ## Composing shifts -/

namespace Shifted

variable {t u v : BlockPrefetcher A} {D D₁ D₂ : Nat → Nat}

theorem refl (t : BlockPrefetcher A) : Shifted δ rm t (fun _ => 0) t :=
  ⟨rfl, fun _ => rfl, fun _ => rfl, fun _ => rfl, fun _ => by simp,
    fun _ _ => ⟨fun h => ⟨h, fun g => absurd g.2.1 (lt_irrefl 0)⟩, fun h => h.1⟩,
    fun _ => ⟨Or.inl, fun h => h.elim id fun ⟨_, _, _, g⟩ => absurd g.2.1 (lt_irrefl 0)⟩⟩

theorem congr (h : Shifted δ rm t D u) (hD : ∀ l, D l = D₁ l) : Shifted δ rm t D₁ u := by
  obtain rfl : D = D₁ := funext hD
  exact h

/-- Under the condition of `trans`, the two rounds remove what either round removes. -/
theorem gone_add_iff (h₁ : Shifted δ rm t D₁ v) (hd : ∀ l, 0 < D₂ l → ¬Gone δ rm t D₁ l) (l : Nat) :
    Gone δ rm t (fun l => D₁ l + D₂ l) l ↔ Gone δ rm t D₁ l ∨ Gone δ rm v D₂ l := by
  simp only [Gone, h₁.count, Nat.cast_add]
  constructor
  · rintro ⟨hr, hpos, hz⟩
    by_cases hD₂ : 0 < D₂ l
    · exact .inr ⟨hr, hD₂, by linarith⟩
    · exact .inl ⟨hr, by omega, by simpa [show D₂ l = 0 by omega] using hz⟩
  · rintro (⟨hr, hpos, hz⟩ | ⟨hr, hpos, hz⟩)
    · have hD₂ : D₂ l = 0 := Nat.eq_zero_of_not_pos fun h => hd l h ⟨hr, hpos, hz⟩
      exact ⟨hr, by omega, by simpa [hD₂] using hz⟩
    · exact ⟨hr, by omega, by linarith⟩

/-- Two rounds of shifts, the second touching no record the first removed. -/
theorem trans (h₁ : Shifted δ rm t D₁ v) (h₂ : Shifted δ rm v D₂ u)
    (hd : ∀ l, 0 < D₂ l → ¬Gone δ rm t D₁ l) : Shifted δ rm t (fun l => D₁ l + D₂ l) u where
  next := h₂.next.trans h₁.next
  parents l := (h₂.parents l).trans (h₁.parents l)
  req l := (h₂.req l).trans (h₁.req l)
  triggered l := (h₂.triggered l).trans (h₁.triggered l)
  count l := by rw [h₂.count, h₁.count]; push_cast; ring
  prefetches i l := by rw [h₂.prefetches, h₁.prefetches, and_assoc, gone_add_iff h₁ hd l, not_or]
  finished i := by
    rw [h₂.finished, h₁.finished]
    constructor
    · rintro ((hf | ⟨hs, l, hl, hg⟩) | ⟨hs, l, hl, hg⟩)
      · exact .inl hf
      · exact .inr ⟨hs, l, hl, (gone_add_iff h₁ hd l).2 (.inl hg)⟩
      · exact .inr ⟨hs, l, ((h₁.prefetches i l).1 hl).1, (gone_add_iff h₁ hd l).2 (.inr hg)⟩
    · rintro (hf | ⟨hs, l, hl, hg⟩)
      · exact .inl (.inl hf)
      · rcases (gone_add_iff h₁ hd l).1 hg with hg | hg
        · exact .inl (.inr ⟨hs, l, hl, hg⟩)
        · exact .inr ⟨hs, l, (h₁.prefetches i l).2 ⟨hl, hd l hg.2.1⟩, hg⟩

theorem parentEdge (h : Shifted δ rm t D u) {c p : Nat} (he : ParentEdge u c p) : ParentEdge t c p :=
  let ⟨q, hq, hp⟩ := he
  ⟨q, h.parents c ▸ hq, ((h.prefetches _ _).1 hp).1⟩

theorem reflTransGen (h : Shifted δ rm t D u) {c p : Nat}
    (he : Relation.ReflTransGen (ParentEdge u) c p) : Relation.ReflTransGen (ParentEdge t) c p :=
  he.mono fun _ _ => h.parentEdge

theorem depthBelow (h : Shifted δ rm t D u) {n c : Nat} (hd : DepthBelow n c t) : DepthBelow n c u :=
  fun path hp => hd path (hp.imp fun _ _ => h.parentEdge)

/-- A record the shifts did not remove keeps its ID. -/
theorem prefetches_of_not_gone (h : Shifted δ rm t D u) {i l : Nat} (hi : t.prefetches i = some l)
    (hg : ¬Gone δ rm t D l) : u.prefetches i = some l :=
  (h.prefetches i l).2 ⟨hi, hg⟩

end Shifted

namespace Budget

variable {t v : BlockPrefetcher A} {D E E' : Nat → Nat}

theorem mono (hB : Budget δ t E) (h : ∀ l, E' l ≤ E l) : Budget δ t E' := fun hδ l hl => by
  have h1 := hB hδ l (lt_of_lt_of_le hl (h l))
  have h2 : δ * (E l : Int) ≤ δ * E' l := mul_le_mul_of_nonpos_left (by exact_mod_cast h l) hδ.le
  linarith

/-- What is left of a budget after the shifts `D`. -/
theorem of_shifted (hB : Budget δ t fun l => D l + E l) (h : Shifted δ rm t D v) : Budget δ v E :=
  fun hδ l hl => by
    have := hB hδ l (show 0 < D l + E l by omega)
    rw [h.count]
    push_cast at this
    linarith

/-- A record with applications still planned has not been removed. -/
theorem not_gone (hrm : rm.isSome → δ < 0) (hB : Budget δ t fun l => D l + E l) {l : Nat}
    (hl : 0 < E l) : ¬Gone δ rm t D l := by
  rintro ⟨hr, -, hz⟩
  have h1 := hB (hrm hr) l (show 0 < D l + E l by omega)
  have h2 : δ * (E l : Int) < 0 := mul_neg_of_neg_of_pos (hrm hr) (by exact_mod_cast hl)
  push_cast at h1
  linarith

end Budget

/-! ## The walk -/

section Walk

/-- The recursive walk from a parent of the record does its shifts, from any state the loop
    may be in. -/
def RecurShifts (store : Nat → Block) (δ : Int) (rm : Option (Nat → Bool)) (recur : WalkFn A BlockPointer)
    (fuel : Nat) : Prop :=
  ∀ q p v, Wf store v → v.prefetches q.id = some p → DepthBelow (fuel + 1) p v → Live v p →
    Budget δ v (fun l => pathsUp v l fuel p) →
    ∃ w, recur q p v = .ok w ∧ Shifted δ rm v (fun l => pathsUp v l fuel p) w ∧ Wf store w

variable {t : BlockPrefetcher A} {loc fuel : Nat} {recur : WalkFn A BlockPointer}

/-- The records on or above a parent `p` of `loc` that applications still planned keep: their
    pointers resolve as in `t`, so the chains from `p` are those of `t`. -/
theorem Shifted.pathsUp_parent {D : Nat → Nat} {v : BlockPrefetcher A} {p : Nat}
    (hv : Shifted δ rm t D v) (hlive : ∀ x, Relation.ReflTransGen (ParentEdge t) p x →
      ∀ q ∈ allParents (t.heap x).parents, (t.prefetches q.id).isSome)
    (hng : ∀ x, Relation.ReflTransGen (ParentEdge t) p x → ¬Gone δ rm t D x) (l : Nat) :
    pathsUp v l fuel p = pathsUp t l fuel p :=
  pathsUp_congr (fun x hx => ⟨by rw [hv.parents], fun q hq => by
    obtain ⟨p', hp'⟩ := Option.isSome_iff_exists.1 (hlive x hx q hq)
    rw [hp', hv.prefetches_of_not_gone hp' (hng p' (hx.tail ⟨q, hq, hp'⟩))]⟩) fuel

/-- The loop over one bucket of the record at `loc`. -/
theorem visitParents_shifted (hrm : rm.isSome → δ < 0) (ht : Wf store t) (hd : DepthBelow (fuel + 2) loc t)
    (hlive : Live t loc) (hrec : RecurShifts store δ rm recur fuel) (n : Nat) (Rest : Nat → Nat) :
    ∀ (L : List BlockPointer) (D : Nat → Nat) (v : BlockPrefetcher A),
      (∀ q ∈ L, q ∈ allParents (t.heap loc).parents) → Shifted δ rm t D v → Wf store v →
      Budget δ t (fun l => D l + ptrSum t (fun p => pathsUp t l fuel p) L + Rest l) →
      ∃ w, L.foldlM (visitParent recur loc n) v = .ok w ∧
        Shifted δ rm t (fun l => D l + ptrSum t (fun p => pathsUp t l fuel p) L) w ∧ Wf store w
  | [], D, v, _, hv, hw, _ => ⟨v, rfl, hv.congr fun l => by rw [ptrSum_nil, Nat.add_zero], hw⟩
  | q :: L, D, v, hL, hv, hw, hB => by
    have hq := hL q (.head _)
    obtain ⟨p, hp⟩ := Option.isSome_iff_exists.1 ((hlive loc .refl).1 q hq)
    have he : ParentEdge t loc p := ⟨q, hq, hp⟩
    simp only [ptrSum_cons _ hp] at hB
    have hBp : Budget δ t fun l => D l + pathsUp t l fuel p := hB.mono fun l => by omega
    -- every record on or above `p` still has the applications of this hop planned
    have hng : ∀ x, Relation.ReflTransGen (ParentEdge t) p x → ¬Gone δ rm t D x := fun x hx =>
      hBp.not_gone hrm (pos_pathsUp hx (hd.parent he))
    have hcount : ∀ l, pathsUp v l fuel p = pathsUp t l fuel p :=
      hv.pathsUp_parent (fun x hx => (hlive x (.head he hx)).1) hng
    obtain ⟨w₁, h₁, hs₁, hw₁⟩ := hrec q p v hw (hv.prefetches_of_not_gone hp (hng p .refl))
      (hv.depthBelow (hd.parent he))
      (fun x hx => by
        have hx' := hv.reflTransGen hx
        obtain ⟨hres, hne⟩ := hlive x (.head he hx')
        refine ⟨fun q' hq' => ?_, by rw [hv.parents]; exact hne⟩
        rw [hv.parents] at hq'
        obtain ⟨p', hp'⟩ := Option.isSome_iff_exists.1 (hres q' hq')
        rw [hv.prefetches_of_not_gone hp' (hng p' (hx'.tail ⟨q', hq', hp'⟩))]
        rfl)
      (by simp only [hcount]; exact hBp.of_shifted hv)
    have hs : Shifted δ rm t (fun l => D l + pathsUp t l fuel p) w₁ :=
      hv.trans (hs₁.congr hcount) fun l hl => hBp.not_gone hrm hl
    obtain ⟨w, h, hs', hw'⟩ := visitParents_shifted hrm ht hd hlive hrec n Rest L _ w₁
      (fun q' hq' => hL q' (.tail _ hq')) hs hw₁ (hB.mono fun l => by omega)
    refine ⟨w, ?_, hs'.congr fun l => by rw [ptrSum_cons _ hp]; omega, hw'⟩
    have hvisit : visitParent recur loc n v q = .ok w₁ := by
      rw [visitParent, hv.prefetches_of_not_gone hp (hng p .refl)]
      exact h₁
    rw [List.foldlM_cons, hvisit]
    exact h

theorem bucketOf_ne_nil {ps : Parents} (hne : ∀ b ∈ ps, b.2 ≠ []) {b : Nat × List BlockPointer}
    (hb : b ∈ ps) : bucketOf b.1 ps ≠ [] := by
  induction ps with
  | nil => cases hb
  | cons b' ps ih =>
    obtain ⟨m, l⟩ := b'
    unfold bucketOf
    split
    · exact hne _ (.head _)
    · rename_i hm
      rcases List.mem_cons.1 hb with rfl | hb
      · exact absurd rfl hm
      · exact ih (fun b h => hne b (.tail _ h)) hb

/-- The loop over the buckets of the record at `loc`; no bucket ends empty. -/
theorem visitBuckets_shifted (hrm : rm.isSome → δ < 0) (ht : Wf store t)
    (hd : DepthBelow (fuel + 2) loc t) (hlive : Live t loc) (hrec : RecurShifts store δ rm recur fuel)
    (Rest : Nat → Nat) :
    ∀ (BS : Parents) (D : Nat → Nat) (v : BlockPrefetcher A), (∀ b ∈ BS, b ∈ (t.heap loc).parents) →
      Shifted δ rm t D v → Wf store v →
      Budget δ t (fun l => D l + ptrSum t (fun p => pathsUp t l fuel p) (allParents BS) + Rest l) →
      ∃ w, BS.foldlM (fun s b => do
          let s ← b.2.foldlM (visitParent recur loc b.1) s
          pure (dropIfEmpty loc b.1 s)) v = .ok w ∧
        Shifted δ rm t (fun l => D l + ptrSum t (fun p => pathsUp t l fuel p) (allParents BS)) w ∧
          Wf store w
  | [], D, v, _, hv, hw, _ => ⟨v, rfl, hv.congr fun l => by rw [allParents, List.flatMap_nil, ptrSum_nil, Nat.add_zero], hw⟩
  | b :: BS, D, v, hBS, hv, hw, hB => by
    have hb := hBS b (.head _)
    have hall : ∀ F, ptrSum t F (allParents (b :: BS)) = ptrSum t F b.2 + ptrSum t F (allParents BS) :=
      fun F => ptrSum_append t F _ _
    simp only [hall] at hB
    obtain ⟨w₁, h₁, hs₁, hw₁⟩ := visitParents_shifted hrm ht hd hlive hrec b.1
      (fun l => ptrSum t (fun p => pathsUp t l fuel p) (allParents BS) + Rest l) b.2 D v
      (fun q hq => List.mem_flatMap.2 ⟨b, hb, hq⟩) hv hw (hB.mono fun l => by beta_reduce; omega)
    have hdrop : dropIfEmpty loc b.1 w₁ = w₁ := by
      have : (bucketOf b.1 (w₁.heap loc).parents).isEmpty = false := by
        rw [hs₁.parents]
        simpa using bucketOf_ne_nil (hlive loc .refl).2 hb
      simp [dropIfEmpty, this]
    obtain ⟨w, h, hs, hw'⟩ := visitBuckets_shifted hrm ht hd hlive hrec Rest BS _ w₁
      (fun b' h' => hBS b' (.tail _ h')) hs₁ hw₁ (hB.mono fun l => by omega)
    refine ⟨w, ?_, hs.congr fun l => by rw [hall]; omega, hw'⟩
    rw [List.foldlM_cons]
    show ((b.2.foldlM (visitParent recur loc b.1) v >>= fun s => pure (dropIfEmpty loc b.1 s)) >>= _) = _
    rw [h₁]
    show List.foldlM _ (dropIfEmpty loc b.1 w₁) BS = _
    rw [hdrop]
    exact h

/-- A well-formed, live record whose walk stays within its budget: the walk ends normally and
    shifts each record once per chain of parent edges up to it. -/
theorem applyToParentsRecursive_shifted {f : WalkFn A Nat} (hf : ShiftFn store δ rm f)
    (hrm : rm.isSome → δ < 0) :
    ∀ (fuel k loc : Nat) (t : BlockPrefetcher A), Wf store t → t.prefetches k = some loc →
      DepthBelow (fuel + 1) loc t → Live t loc → Budget δ t (fun l => pathsUp t l fuel loc) →
      ∃ u, applyToParentsRecursive f (fuel + 1) k loc t = .ok u ∧
        Shifted δ rm t (fun l => pathsUp t l fuel loc) u ∧ Wf store u
  | 0, k, loc, t, ht, hk, hd, hlive, hB => by
    have hnil : (t.heap loc).parents = [] := by
      cases h : (t.heap loc).parents with
      | nil => rfl
      | cons b bs =>
        obtain ⟨q, hq⟩ := List.exists_mem_of_ne_nil _ ((hlive loc .refl).2 b (h ▸ .head _))
        have hq' : q ∈ allParents (t.heap loc).parents := h ▸ List.mem_flatMap.2 ⟨b, .head _, hq⟩
        obtain ⟨p, hp⟩ := Option.isSome_iff_exists.1 ((hlive loc .refl).1 q hq')
        exact absurd ⟨q, hq', hp⟩ hd.not_parentEdge
    obtain ⟨u, hu, hs, hw⟩ := hf k loc t ht hk fun hδ => by
      simpa [pathsUp_zero] using hB hδ loc (by simp [pathsUp_zero])
    refine ⟨u, ?_, hs.congr fun l => by rw [pathsUp_zero]; simp [eq_comm], hw⟩
    show (visitAllParents _ loc t >>= fun s => f k loc s) = _
    rw [visitAllParents, hnil]
    exact hu
  | fuel + 1, k, loc, t, ht, hk, hd, hlive, hB => by
    have hrec : RecurShifts store δ rm
        (fun pptr parent s => applyToParentsRecursive f (fuel + 1) pptr.id parent s) fuel :=
      fun q p v hv hvp hdv hlv hBv => applyToParentsRecursive_shifted hf hrm fuel q.id p v hv hvp hdv hlv hBv
    have hB' : Budget δ t fun l => parentSum t (fun p => pathsUp t l fuel p) loc +
        (if l = loc then 1 else 0) :=
      hB.mono fun l => by rw [pathsUp_succ]; simp [eq_comm, Nat.add_comm]
    obtain ⟨w, hw, hs, hww⟩ := visitBuckets_shifted hrm ht hd hlive hrec (fun l => if l = loc then 1 else 0)
      (t.heap loc).parents (fun _ => 0) t (fun _ h => h) (Shifted.refl t) ht
      (hB'.mono fun l => by simp [parentSum])
    have hs' : Shifted δ rm t (fun l => parentSum t (fun p => pathsUp t l fuel p) loc) w :=
      hs.congr fun l => by simp [parentSum]
    obtain ⟨u, hu, hsu, hwu⟩ := hf k loc w hww
      (hs'.prefetches_of_not_gone hk (hB'.not_gone hrm (by simp)))
      fun hδ => by simpa using hB'.of_shifted hs' hδ loc (by simp)
    refine ⟨u, ?_, (hs'.trans hsu fun l hl => hB'.not_gone hrm hl).congr fun l => by
      rw [pathsUp_succ]; simp [eq_comm, Nat.add_comm], hwu⟩
    have hw' : visitAllParents (fun pptr parent s => applyToParentsRecursive f (fuel + 1) pptr.id
        parent s) loc t = .ok w := hw
    show (visitAllParents _ loc t >>= fun s => f k loc s) = _
    rw [hw']
    exact hu

end Walk

/-! ## The three shifts -/

/-- A write of the count alone is one shift, when it does not remove the record. -/
theorem Shifted.modify_count {t : BlockPrefetcher A} {l : Nat} {g : Prefetch A → Prefetch A}
    (hg : g (t.heap l) = { t.heap l with subtreeBlockCount := (t.heap l).subtreeBlockCount + δ })
    (hng : rm.isSome → (t.heap l).subtreeBlockCount + δ ≠ 0) :
    Shifted δ rm t (fun x => if x = l then 1 else 0) (t.modify l g) := by
  have hng' : ∀ x, ¬Gone δ rm t (fun x => if x = l then 1 else 0) x := by
    rintro x ⟨hr, hpos, hz⟩
    by_cases hx : x = l
    · subst hx
      exact hng hr (by simpa using hz)
    · simp [hx] at hpos
  refine ⟨rfl, fun x => ?_, fun x => ?_, fun x => ?_, fun x => ?_,
    fun i x => ⟨fun h => ⟨h, hng' x⟩, And.left⟩,
    fun i => ⟨Or.inl, fun h => h.elim id fun ⟨_, x, _, hx⟩ => absurd hx (hng' x)⟩⟩ <;>
    by_cases hx : x = l <;> simp [hx, hg]

theorem decrementPrefetch_shiftFn : ShiftFn store (-1) none (decrementPrefetch : WalkFn A Nat) := by
  intro k l t ht hk hb
  have hc := hb (by norm_num)
  have h : decrementPrefetch k l t =
      .ok (t.modify l fun pp => { pp with subtreeBlockCount := pp.subtreeBlockCount - 1 }) := by
    simp only [decrementPrefetch, modify_heap, if_true]
    rw [if_neg (by omega)]
    rfl
  exact ⟨_, h, Shifted.modify_count (by rw [sub_eq_add_neg]) nofun,
    ((decrementPrefetch_keeps k l t ht (ht.keyed k l hk)).of_ok h).1⟩

theorem addSubtreeBlocks_shiftFn (n : Int) :
    ShiftFn store n none (addSubtreeBlocks n : WalkFn A Nat) := by
  intro k l t ht hk _
  have h : addSubtreeBlocks n k l t =
      .ok (t.modify l fun pp => { pp with subtreeBlockCount := pp.subtreeBlockCount + n }) := rfl
  exact ⟨_, h, Shifted.modify_count rfl nofun,
    ((addSubtreeBlocks_keeps n k l t ht (ht.keyed k l hk)).of_ok h).1⟩

/-- `completePrefetch n solo`, `n > 0`: a shift by `-n` that removes the record at 0, deleting
    its ID (the key it is applied under) and closing it. -/
theorem completePrefetch_shiftFn {n : Int} (hn : 0 < n) (solo : Nat → Bool) :
    ShiftFn store (-n) (some solo) (completePrefetch n solo : WalkFn A Nat) := by
  intro k l t ht hk hb
  have hc : 0 ≤ (t.heap l).subtreeBlockCount - n := by have := hb (by omega); linarith
  have hwf : (completePrefetch n solo k l t).Holds (· ≠ .stackExhausted)
      fun t' => Wf store t' ∧ t'.Within t := completePrefetch_keeps n solo k l t ht (ht.keyed k l hk)
  have hg : ∀ pp : Prefetch A, ({ pp with subtreeBlockCount := pp.subtreeBlockCount - n } : Prefetch A) =
      { pp with subtreeBlockCount := pp.subtreeBlockCount + -n } := fun pp => by rw [sub_eq_add_neg]
  by_cases h0 : (t.heap l).subtreeBlockCount - n = 0
  · let s₁ := t.modify l fun pp => { pp with subtreeBlockCount := pp.subtreeBlockCount - n }
    let u := ((((s₁.deletePrefetch k).clearRescheduleState k).deleteRescheduled k).emitIf (solo k)
      (.putFinished (t.heap l).req.ptr)).modify l fun pp => { pp with closed := true }
    have h : completePrefetch n solo k l t = .ok u := by
      simp only [completePrefetch, modify_heap, if_true]
      rw [if_neg (by omega), pure_bind, if_neg (not_not.2 h0), pure_bind, close]
      simp [s₁, ht.isOpen k l hk]
    refine ⟨u, h, ⟨by simp [u, s₁], fun x => ?_, fun x => ?_, fun x => ?_, fun x => ?_, fun i x => ?_,
      fun i => ?_⟩, (hwf.of_ok h).1⟩
    all_goals try (by_cases hx : x = l <;> simp [u, s₁, hx]; done)
    · by_cases hx : x = l
      · simp [u, s₁, hx]
        omega
      · simp [u, s₁, hx]
    · simp only [u, s₁, modify_prefetches, emitIf_prefetches, deleteRescheduled_prefetches,
        clearRescheduleState_prefetches, deletePrefetch_prefetches]
      by_cases hi : i = k
      · subst hi
        simp only [if_true, reduceCtorEq, false_iff, not_and, not_not, hk, Option.some.injEq]
        rintro rfl
        exact ⟨rfl, by simp, by simpa using h0⟩
      · rw [if_neg hi]
        refine ⟨fun hix => ⟨hix, ?_⟩, And.left⟩
        rintro ⟨-, hpos, -⟩
        obtain rfl : x = l := by by_contra hx; simp [hx] at hpos
        exact hi ((ht.keyed i x hix).symm.trans (ht.keyed k x hk))
    · -- the one output is the record's `putFinished`, under the ID it is applied to, when
      -- its solo retrieval succeeds
      have hfin : u.finished i = (solo k && (k == i) || t.finished i) := by
        simp [u, s₁, Output.finishesId, ht.keyed k l hk]
      rw [hfin, Bool.or_eq_true, Bool.and_eq_true, beq_iff_eq]
      constructor
      · rintro (⟨hs, rfl⟩ | hf)
        · exact .inr ⟨hs, l, hk, rfl, by simp, by simpa using h0⟩
        · exact .inl hf
      · rintro (hf | ⟨hs, x, hx, -, hpos, -⟩)
        · exact .inr hf
        · obtain rfl : x = l := by by_contra hxl; simp [hxl] at hpos
          obtain rfl := (ht.keyed k x hk).symm.trans (ht.keyed i x hx)
          exact .inl ⟨hs, rfl⟩
  · have h : completePrefetch n solo k l t =
        .ok (t.modify l fun pp => { pp with subtreeBlockCount := pp.subtreeBlockCount - n }) := by
      simp only [completePrefetch, modify_heap, if_true]
      rw [if_neg (by omega), pure_bind, if_pos h0]
      rfl
    exact ⟨_, h, Shifted.modify_count (hg _) fun _ => by rw [← sub_eq_add_neg]; exact h0,
      (hwf.of_ok h).1⟩

end KbfsPrefetcher
