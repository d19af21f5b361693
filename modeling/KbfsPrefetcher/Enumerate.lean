import KbfsPrefetcher.Unfetched
import KbfsPrefetcher.Children

/-
  The counts along the enumeration of a fetched block's children.

  Model: `SteadyCounts s` is the count invariant of `run`'s design comment: every stored
  record's `subtreeBlockCount` is `unfetchedBelow`, and positive, and the records are
  `Linked`: every parent pointer of a stored record names a stored, triggered record, and no
  stored record has an empty bucket. While `handlePrefetch` enumerates the children of the
  record at `r` (pointer `P`), the counts lag behind: `Owing store s r P acc` says every count
  plus `acc` times the chains from `r` is the design's count, `acc` being the `numBlocks`
  summed so far, which the `addSubtreeBlocks` walk at the end adds. `Fresh` says that, when
  `r` is new, only the children requested so far point to it; `Attached` that some stored
  record does.

  Proved: `requestEach_owing`, the request loop keeps `Owing` and ends with the `acc` it
  returns. One `request` is `request_owing`, from one lemma per change it makes:
  `Owing.withRecord` (a new child, count 1), `Owing.sameChains` (`sendChildRequest`) and
  `Owing.withEdge` (a new edge, whose child's count joins `acc`). `Owing.addWalk` closes the
  enumeration: the walk adding `acc` restores `SteadyCounts`.
-/

namespace KbfsPrefetcher

open BlockPrefetcher

variable {A : Type} {store : Nat → Block}

/-! ## The invariants -/

/-- Every parent pointer of a stored record names a stored, triggered record, and no stored
    record has an empty bucket: a walk from a stored record drops nothing. -/
structure Linked (s : BlockPrefetcher A) : Prop where
  live : ∀ l, s.isStored l → ∀ q ∈ allParents (s.heap l).parents,
    ∃ p, s.prefetches q.id = some p ∧ (s.heap p).subtreeTriggered = true
  full : ∀ l, s.isStored l → ∀ b ∈ (s.heap l).parents, b.2 ≠ []

/-- The count invariant of `run`'s design comment: every stored record's count is the design's
    count and positive, and the records are linked. -/
structure SteadyCounts (s : BlockPrefetcher A) : Prop where
  count : ∀ l, s.isStored l → (s.heap l).subtreeBlockCount = unfetchedBelow s l
  pos : ∀ l, s.isStored l → 0 < (s.heap l).subtreeBlockCount
  linked : Linked s

/-- Some stored record has a parent pointer to the ID of `P`. -/
def Attached (s : BlockPrefetcher A) (P : BlockPointer) : Prop :=
  ∃ l, s.isStored l ∧ ∃ q ∈ allParents (s.heap l).parents, q.id = P.id

/-- While the children of the record at `r`, of pointer `P`, are requested: the counts are the
    design's but for `acc` times the chains from `r`, and those the chains from `r` miss are
    positive. With nothing owed, every count is positive or nothing points to `P` yet. -/
structure Owing (store : Nat → Block) (s : BlockPrefetcher A) (r : Nat) (P : BlockPointer)
    (acc : Int) : Prop where
  wf : Wf store s
  stored : s.prefetches P.id = some r
  triggered : (s.heap r).subtreeTriggered = true
  acc_nonneg : 0 ≤ acc
  count : ∀ l, s.isStored l →
    (s.heap l).subtreeBlockCount + acc * pathsUp s l s.next r = unfetchedBelow s l
  nonneg : ∀ l, s.isStored l → 0 ≤ (s.heap l).subtreeBlockCount
  pos : ∀ l, s.isStored l → pathsUp s l s.next r = 0 → 0 < (s.heap l).subtreeBlockCount
  ready : acc = 0 → (∀ l, s.isStored l → 0 < (s.heap l).subtreeBlockCount) ∨ ¬Attached s P
  linked : Linked s

/-- With a new parent `P`, only the children whose IDs `seen` holds point to it. -/
def Fresh (s : BlockPrefetcher A) (P : BlockPointer) (seen : List Nat) : Prop :=
  ∀ l, s.isStored l → ∀ q ∈ allParents (s.heap l).parents, q.id = P.id →
    (s.heap l).req.ptr.id ∈ seen

/-! ## Linked states -/

theorem isStored_modify {s : BlockPrefetcher A} {c : Nat} {g : Prefetch A → Prefetch A}
    (hg : (g (s.heap c)).req.ptr = (s.heap c).req.ptr) (l : Nat) :
    (s.modify c g).isStored l = s.isStored l := by
  by_cases hl : l = c <;> simp [BlockPrefetcher.isStored, hl, hg]

/-- In a well-formed state no child of the block of `r`, in the store, is on or above `r`. -/
theorem Wf.not_reach_child {s : BlockPrefetcher A} (hs : Wf store s) (hst : StoreAcyclic store)
    {r c : Nat} (hc : ChildOf store (s.heap r).req.ptr.id (s.heap c).req.ptr.id) :
    ¬Relation.ReflTransGen (ParentEdge s) r c := fun h => by
  have h' : Relation.ReflTransGen (fun a b => ChildOf store b a) (s.heap r).req.ptr.id
      (s.heap c).req.ptr.id :=
    Relation.ReflTransGen.lift (fun l => (s.heap l).req.ptr.id) (fun _ _ => hs.childOf_of_parentEdge) h
  exact hst _ (Relation.TransGen.head' hc h'.swap)

namespace Linked

variable {s t : BlockPrefetcher A}

theorem sameChains (h : Linked s) (hs : SameChains s t) : Linked t where
  live l hl q hq := by
    rw [hs.isStored] at hl; rw [hs.parents] at hq
    obtain ⟨p, hp, ht⟩ := h.live l hl q hq
    exact ⟨p, by rw [hs.prefetches]; exact hp, by rw [hs.triggered]; exact ht⟩
  full l hl := by rw [hs.isStored] at hl; rw [hs.parents]; exact h.full l hl

/-- A walk from a stored record finds every pointer resolved and no bucket empty. -/
theorem walkLive (h : Linked s) (hs : Wf store s) {r : Nat} (hr : s.isStored r) : Live s r :=
  fun x hx =>
    have hxs := hs.isStored_of_reach hr hx
    ⟨fun q hq => by obtain ⟨p, hp, -⟩ := h.live x hxs q hq; rw [hp]; rfl, h.full x hxs⟩

/-- No stored record points to an ID whose record is missing or untriggered. -/
theorem not_attached (h : Linked s) {P : BlockPointer}
    (hP : ∀ p, s.prefetches P.id = some p → (s.heap p).subtreeTriggered = false) :
    ¬Attached s P := fun ⟨l, hl, q, hq, e⟩ => by
  obtain ⟨p, hp, ht⟩ := h.live l hl q hq
  rw [e] at hp
  rw [hP p hp] at ht
  cases ht

theorem ne_of_none (h : Linked s) {id : Nat} (hn : s.prefetches id = none) :
    ∀ l, s.isStored l → ∀ q ∈ allParents (s.heap l).parents, q.id ≠ id := fun l hl q hq e => by
  obtain ⟨p, hp, -⟩ := h.live l hl q hq
  rw [e, hn] at hp
  cases hp

end Linked

/-! ## A new child record -/

section NewRecord

variable {t : BlockPrefetcher A} {id : Nat} {pp : Prefetch A}

theorem isStored_withRecord_iff (hid : pp.req.ptr.id = id) (hn : t.prefetches id = none)
    {l : Nat} : (withRecord t id pp).isStored l ↔ t.isStored l ∨ l = t.next := by
  simp [isStored_withRecord hid hn]

theorem withRecord_heap_of_lt {l : Nat} (hl : l < t.next) : (withRecord t id pp).heap l = t.heap l :=
  by simp [hl.ne]

theorem Linked.withRecord (h : Linked t) (ht : Wf store t) (hn : t.prefetches id = none)
    (hid : pp.req.ptr.id = id) (hpp : pp.parents = []) : Linked (withRecord t id pp) := by
  have hfresh := h.ne_of_none hn
  constructor
  · intro l hl q hq
    rcases (isStored_withRecord_iff hid hn).1 hl with hl | rfl
    · rw [withRecord_heap_of_lt (ht.lt_next hl)] at hq
      obtain ⟨p, hp, htr⟩ := h.live l hl q hq
      refine ⟨p, by simp [hfresh l hl q hq, hp], ?_⟩
      rw [withRecord_heap_of_lt (ht.allocated _ p hp)]
      exact htr
    · simp [hpp, allParents] at hq
  · intro l hl b hb
    rcases (isStored_withRecord_iff hid hn).1 hl with hl | rfl
    · rw [withRecord_heap_of_lt (ht.lt_next hl)] at hb
      exact h.full l hl b hb
    · simp [hpp] at hb

theorem Fresh.withRecord {P : BlockPointer} {seen : List Nat} (hf : Fresh t P seen) (ht : Wf store t)
    (hid : pp.req.ptr.id = id) (hn : t.prefetches id = none) (hpp : pp.parents = []) :
    Fresh (withRecord t id pp) P seen := fun l hl q hq e => by
  rcases (isStored_withRecord_iff hid hn).1 hl with hl | rfl
  · rw [withRecord_heap_of_lt (ht.lt_next hl)] at hq ⊢
    exact hf l hl q hq e
  · simp [hpp, allParents] at hq

/-- A new untriggered child record with count 1 and no parents, under an ID without one. -/
theorem Owing.withRecord (hst : StoreAcyclic store) {r : Nat} {P : BlockPointer} {acc : Int}
    (ho : Owing store t r P acc) (hn : t.prefetches id = none) (hid : pp.req.ptr.id = id)
    (hpp : pp.parents = []) (hc : pp.subtreeBlockCount = 1) (htr : pp.subtreeTriggered = false)
    (hcl : pp.closed = false) : Owing store (withRecord t id pp) r P acc := by
  have hb := ho.wf.chainsBounded hst
  have hfresh := ho.linked.ne_of_none hn
  have hr : t.isStored r := ho.wf.isStored ho.stored
  have hrn : r < t.next := ho.wf.lt_next hr
  have hN : ∀ l, pathsUp (KbfsPrefetcher.withRecord t id pp) l
      (KbfsPrefetcher.withRecord t id pp).next r = pathsUp t l t.next r :=
    pathsUp_withRecord ho.wf hb hfresh hr
  have hU := unfetchedBelow_withRecord ho.wf hb hid hn hpp hfresh
  have hnew : pathsUp t t.next t.next r = 0 :=
    pathsUp_of_not_stored ho.wf (fun h => lt_irrefl _ (ho.wf.lt_next h)) hrn.ne _
  have hold : ∀ l, t.isStored l → ¬(pp.subtreeTriggered = false ∧ t.next = l) :=
    fun l hl h => (ho.wf.lt_next hl).ne h.2.symm
  refine ⟨(ho.wf.alloc hpp).setPrefetch (by simp) (by simp [hid]) (by simp [hcl]), ?_,
    by rw [withRecord_heap_of_lt hrn]; exact ho.triggered, ho.acc_nonneg, fun l hl => ?_,
    fun l hl => ?_, fun l hl hz => ?_, fun h0 => ?_, ho.linked.withRecord ho.wf hn hid hpp⟩
  · have hne : P.id ≠ id := fun e => by have := ho.stored; rw [e, hn] at this; cases this
    simp [hne, ho.stored]
  · rw [hN, hU]
    rcases (isStored_withRecord_iff hid hn).1 hl with hl | rfl
    · rw [withRecord_heap_of_lt (ho.wf.lt_next hl), if_neg (hold l hl)]
      simpa using ho.count l hl
    · simp [hc, htr, hnew, unfetchedBelow_next ho.wf]
  · rcases (isStored_withRecord_iff hid hn).1 hl with hl | rfl
    · rw [withRecord_heap_of_lt (ho.wf.lt_next hl)]; exact ho.nonneg l hl
    · simp [hc]
  · rcases (isStored_withRecord_iff hid hn).1 hl with hl | rfl
    · rw [hN] at hz
      rw [withRecord_heap_of_lt (ho.wf.lt_next hl)]; exact ho.pos l hl hz
    · simp [hc]
  · refine (ho.ready h0).imp (fun hp l hl => ?_) fun hna ⟨l, hl, q, hq, e⟩ => ?_
    · rcases (isStored_withRecord_iff hid hn).1 hl with hl | rfl
      · rw [withRecord_heap_of_lt (ho.wf.lt_next hl)]; exact hp l hl
      · simp [hc]
    · rcases (isStored_withRecord_iff hid hn).1 hl with hl | rfl
      · rw [withRecord_heap_of_lt (ho.wf.lt_next hl)] at hq
        exact hna ⟨l, hl, q, hq, e⟩
      · simp [hpp, allParents] at hq

end NewRecord

/-! ## A new edge -/

section NewEdge

variable {t : BlockPrefetcher A} {c n : Nat} {P : BlockPointer}

@[simp] theorem withEdge_isStored (l : Nat) : (withEdge t c n P).isStored l = t.isStored l :=
  isStored_modify rfl l

@[simp] theorem withEdge_triggered (l : Nat) :
    ((withEdge t c n P).heap l).subtreeTriggered = (t.heap l).subtreeTriggered := by
  by_cases hl : l = c <;> simp [hl]

@[simp] theorem withEdge_count (l : Nat) :
    ((withEdge t c n P).heap l).subtreeBlockCount = (t.heap l).subtreeBlockCount := by
  by_cases hl : l = c <;> simp [hl]

@[simp] theorem withEdge_ptr (l : Nat) : ((withEdge t c n P).heap l).req.ptr = (t.heap l).req.ptr := by
  by_cases hl : l = c <;> simp [hl]

/-- `addParent` leaves no bucket empty. -/
theorem addParent_full {n : Nat} {P : BlockPointer} :
    ∀ {ps : Parents}, (∀ b ∈ ps, b.2 ≠ []) → ∀ b ∈ addParent n P ps, b.2 ≠ []
  | [], _ => by simp [addParent]
  | (m, l) :: ps, h => by
    unfold addParent
    split
    · rintro b (_ | ⟨_, hb⟩)
      · split
        · exact h _ (.head _)
        · simp
      · exact h b (.tail _ hb)
    · rintro b (_ | ⟨_, hb⟩)
      · exact h _ (.head _)
      · exact addParent_full (fun b hb => h b (.tail _ hb)) b hb

theorem Linked.withEdge (h : Linked t) {r : Nat} (hP : t.prefetches P.id = some r)
    (htr : (t.heap r).subtreeTriggered = true) : Linked (withEdge t c n P) where
  live l hl q hq := by
    rw [withEdge_isStored] at hl
    simp only [withEdge_triggered, modify_prefetches]
    by_cases hlc : l = c
    · subst hlc
      simp only [modify_heap, if_true] at hq
      rcases mem_allParents_addParent hq with rfl | hq
      · exact ⟨r, hP, htr⟩
      · exact h.live l hl q hq
    · simp only [modify_heap, hlc, if_false] at hq
      exact h.live l hl q hq
  full l hl := by
    rw [withEdge_isStored] at hl
    by_cases hlc : l = c
    · subst hlc
      simp only [modify_heap, if_true]
      exact addParent_full (h.full l hl)
    · simp only [modify_heap, hlc, if_false]
      exact h.full l hl

theorem Fresh.withEdge {seen : List Nat} (hf : Fresh t P seen) :
    Fresh (withEdge t c n P) P ((t.heap c).req.ptr.id :: seen) := fun l hl q hq e => by
  rw [withEdge_isStored] at hl
  rw [withEdge_ptr]
  by_cases hlc : l = c
  · subst hlc; exact .head _
  · simp only [modify_heap, hlc, if_false] at hq
    exact .tail _ (hf l hl q hq e)

/-- The edge from a stored child `c` of `P`'s block to `P`: its count, the design's count of
    `c`, joins what is owed. -/
theorem Owing.withEdge (hst : StoreAcyclic store) {r : Nat} {acc : Int} (ho : Owing store t r P acc)
    (hcs : t.isStored c) (hc : ChildOf store P.id (t.heap c).req.ptr.id)
    (hnot : P ∉ bucketOf n (t.heap c).parents) :
    Owing store (withEdge t c n P) r P (acc + (t.heap c).subtreeBlockCount) := by
  have hb := ho.wf.chainsBounded hst
  have hw : Wf store (KbfsPrefetcher.withEdge t c n P) := ho.wf.addParent hc
  have hb' := hw.chainsBounded hst
  have hrc : ¬Relation.ReflTransGen (ParentEdge t) r c :=
    ho.wf.not_reach_child hst (by rw [ho.wf.keyed _ _ ho.stored]; exact hc)
  have hNrc : pathsUp t c t.next r = 0 := pathsUp_eq_zero hrc _
  have hN : ∀ l, pathsUp (KbfsPrefetcher.withEdge t c n P) l (KbfsPrefetcher.withEdge t c n P).next r = pathsUp t l t.next r :=
    fun l => by rw [modify_next, pathsUp_withEdge hb hb' ho.stored hnot hrc, hNrc, Nat.zero_mul,
      Nat.add_zero]
  have hcc : (t.heap c).subtreeBlockCount = unfetchedBelow t c := by
    simpa [hNrc] using ho.count c hcs
  have hpos : 0 < (t.heap c).subtreeBlockCount := ho.pos c hcs hNrc
  have hacc := ho.acc_nonneg
  refine ⟨hw, ho.stored, by rw [withEdge_triggered]; exact ho.triggered, by omega,
    fun l hl => ?_, fun l hl => ?_, fun l hl hz => ?_, fun h0 => by omega,
    ho.linked.withEdge ho.stored ho.triggered⟩
  · rw [withEdge_isStored] at hl
    rw [withEdge_count, hN, unfetchedBelow_withEdge hb hb' ho.stored hnot hrc]
    push_cast
    linear_combination ho.count l hl + (pathsUp t l t.next r : Int) * hcc
  · rw [withEdge_isStored] at hl
    rw [withEdge_count]; exact ho.nonneg l hl
  · rw [withEdge_isStored] at hl
    rw [hN] at hz
    rw [withEdge_count]; exact ho.pos l hl hz

end NewEdge

/-! ## One request -/

/-- A change that keeps the chains and the counts. -/
theorem Owing.sameChains {s t : BlockPrefetcher A} {r : Nat} {P : BlockPointer} {acc : Int}
    (ho : Owing store s r P acc) (h : SameChains s t)
    (hc : ∀ l, (t.heap l).subtreeBlockCount = (s.heap l).subtreeBlockCount) (hw : Wf store t) :
    Owing store t r P acc where
  wf := hw
  stored := by rw [h.prefetches]; exact ho.stored
  triggered := by rw [h.triggered]; exact ho.triggered
  acc_nonneg := ho.acc_nonneg
  count l hl := by
    rw [h.isStored] at hl
    rw [hc, h.next, h.pathsUp, h.unfetchedBelow]; exact ho.count l hl
  nonneg l hl := by rw [h.isStored] at hl; rw [hc]; exact ho.nonneg l hl
  pos l hl hz := by
    rw [h.isStored] at hl; rw [h.next, h.pathsUp] at hz; rw [hc]; exact ho.pos l hl hz
  ready hz := by
    refine (ho.ready hz).imp (fun hp l hl => ?_) fun hn ⟨l, hl, q, hq, e⟩ => ?_
    · rw [h.isStored] at hl; rw [hc]; exact hp l hl
    · rw [h.isStored] at hl; rw [h.parents] at hq; exact hn ⟨l, hl, q, hq, e⟩
  linked := ho.linked.sameChains h

theorem Fresh.sameChains {s t : BlockPrefetcher A} {P : BlockPointer} {seen : List Nat}
    (hf : Fresh s P seen) (h : SameChains s t) : Fresh t P seen := fun l hl q hq e => by
  rw [h.isStored] at hl; rw [h.parents] at hq; rw [h.ptr]; exact hf l hl q hq e

section Request

variable (hst : StoreAcyclic store) {t : BlockPrefetcher A} {r : Nat} {P : BlockPointer}
  {acc : Int} {isNew : Bool} {seen : List Nat}

include hst in
/-- The lookup or creation of the child's record. -/
theorem childRecord_owing (ho : Owing store t r P acc) (hf : isNew = true → Fresh t P seen)
    (priority : Int) (q : BlockPointer) (action : A) :
    let x := childRecord priority q action t
    Owing store x.2.2 r P acc ∧ (isNew = true → Fresh x.2.2 P seen) ∧
      x.2.2.prefetches q.id = some x.2.1 := by
  unfold childRecord
  split
  · exact ⟨ho, hf, ‹_›⟩
  · rename_i hn
    exact ⟨ho.withRecord hst hn rfl rfl rfl rfl rfl, fun h => (hf h).withRecord ho.wf rfl hn rfl,
      by simp⟩

include hst in
/-- `recordParent` for a child `q` the loop has not seen: a missing edge is added and the
    child's count returned; an edge already there returns 0, for a new parent has none. -/
theorem recordParent_owing (ho : Owing store t r P acc) (hf : isNew = true → Fresh t P seen)
    {q : BlockPointer} {c : Nat} (hq : q.id ∉ seen) (hl : t.prefetches q.id = some c)
    (hc : ChildOf store P.id q.id) :
    ∃ n t', recordParent q P isNew c t = .ok (n, t') ∧ Owing store t' r P (acc + n) ∧
      (isNew = true → Fresh t' P (q.id :: seen)) := by
  have hcs : t.isStored c := ho.wf.isStored hl
  have hk : (t.heap c).req.ptr.id = q.id := ho.wf.keyed _ _ hl
  simp only [recordParent, ho.stored, Option.isNone_some, Bool.false_eq_true, if_false]
  by_cases hm : P ∈ bucketOf q.refNonce (t.heap c).parents
  · cases isNew
    · refine ⟨0, t, by simp [hm]; rfl, by simpa using ho, nofun⟩
    · exact absurd (hk ▸ hf rfl c hcs P (bucketOf_subset _ _ hm) rfl) hq
  · refine ⟨_, _, by simp [hm]; rfl, ho.withEdge hst hcs (hk ▸ hc) hm,
      fun h => hk ▸ (hf h).withEdge⟩

variable [DecidableEq A] (act : ActionOps A)

/-- `sendChildRequest` writes the child's action only. -/
theorem sendChildRequest_sameChains (priority : Int) (q : BlockPointer) (action : A) (w : Bool)
    (c : Nat) (t : BlockPrefetcher A) :
    let t' := sendChildRequest act priority q action w c t
    SameChains t t' ∧ ∀ l, (t'.heap l).subtreeBlockCount = (t.heap l).subtreeBlockCount := by
  dsimp only [sendChildRequest]
  split
  · exact ⟨(SameChains.modify t c rfl rfl rfl).trans (.emit _ _),
      fun l => by by_cases hl : l = c <;> simp [hl]⟩
  · exact ⟨.refl t, fun _ => rfl⟩

include hst in
/-- One `request` for a child of `P`'s block. -/
theorem request_owing (ho : Owing store t r P acc) (hf : isNew = true → Fresh t P seen)
    {q : BlockPointer} (hc : ChildOf store P.id q.id) (priority : Int) (action : A) :
    ∃ n seen' t', request act priority q P isNew action seen t = .ok (n, seen', t') ∧
      Owing store t' r P (acc + n) ∧ (isNew = true → Fresh t' P seen') := by
  by_cases hq : q.id ∈ seen
  · exact ⟨0, seen, t, by simp [request, hq]; rfl, by simpa using ho, hf⟩
  · simp only [request, if_neg hq]
    obtain ⟨ho₁, hf₁, hl₁⟩ := childRecord_owing hst ho hf priority q action
    generalize childRecord priority q action t = x at ho₁ hf₁ hl₁ ⊢
    obtain ⟨w, c, t₁⟩ := x
    obtain ⟨hsc, hcnt⟩ := sendChildRequest_sameChains act priority q action w c t₁
    have ho₂ := ho₁.sameChains hsc hcnt (sendChildRequest_spec act priority q action w c ho₁.wf).1
    obtain ⟨n, t₃, h₃, ho₃, hf₃⟩ := recordParent_owing hst ho₂ (fun h => (hf₁ h).sameChains hsc) hq
      (by rw [hsc.prefetches]; exact hl₁) hc
    refine ⟨n, q.id :: seen, t₃, ?_, ho₃, hf₃⟩
    dsimp only
    rw [h₃]
    rfl

include hst in
/-- The request loop over children of `P`'s block keeps `Owing`, and ends with what it owes. -/
theorem requestEach_owing (priority : Int) (action : A) :
    ∀ (ptrs : List BlockPointer) (acc : Int) (seen : List Nat) (t : BlockPrefetcher A),
      Owing store t r P acc → (isNew = true → Fresh t P seen) →
      (∀ q ∈ ptrs, ChildOf store P.id q.id) →
      ∃ acc' t', requestEach act priority P isNew action ptrs acc seen t = .ok (acc', t') ∧
        Owing store t' r P acc'
  | [], acc, _, t, ho, _, _ => ⟨acc, t, rfl, ho⟩
  | q :: qs, acc, seen, t, ho, hf, hc => by
    obtain ⟨n, seen', t₁, h₁, ho₁, hf₁⟩ := request_owing hst act ho hf (hc q (.head _)) priority action
    obtain ⟨acc', t', h, ho'⟩ := requestEach_owing priority action qs (acc + n) seen' t₁ ho₁ hf₁
      fun q' hq' => hc q' (.tail _ hq')
    refine ⟨acc', t', ?_, ho'⟩
    show (request act priority q P isNew action seen t >>= fun x =>
      requestEach act priority P isNew action qs (acc + x.1) x.2.1 x.2.2) = _
    rw [h₁]
    exact h

end Request

/-! ## The end of the enumeration -/

/-- A block is a tail exactly when `handlePrefetch` has no child to request for it. -/
theorem Block.isTail_eq_isEmpty (b : Block) : b.isTail = b.childPtrs.isEmpty := by
  rcases b with ⟨_ | _, iptrs⟩ | ⟨_ | _, iptrs, children⟩ | _
  all_goals try rfl
  simp only [Block.isTail, Block.childPtrs, isEmpty_map_eq]
  induction children with
  | nil => rfl
  | cons e es ih => cases h : e.type.isPrefetchable <;> simp [List.filter_cons, h, ih]

theorem Attached.of_hasEdge {u : BlockPrefetcher A} (hu : Wf store u) {P q : BlockPointer}
    (h : hasEdge u P q = true) : Attached u P := by
  unfold hasEdge at h
  split at h
  · cases h
  · rename_i l hl
    exact ⟨l, hu.isStored hl, P, bucketOf_subset _ _ (of_decide_eq_true h), rfl⟩

namespace Owing

variable {t : BlockPrefetcher A} {r : Nat} {P : BlockPointer} {acc : Int}

/-- Nothing owed and a child attached: the design's counts, all positive. -/
theorem steadyCounts (ho : Owing store t r P 0) (ha : Attached t P) : SteadyCounts t where
  count l hl := by simpa using ho.count l hl
  pos := (ho.ready rfl).resolve_right (not_not_intro ha)
  linked := ho.linked

/-- The walk adding what is owed: one shift by `acc` per chain from `r`. -/
theorem addWalk_shifted (hst : StoreAcyclic store) (ho : Owing store t r P acc) (hacc : 0 < acc)
    {k : Nat} (hk : t.prefetches k = some r) :
    ∃ u, applyToParentsRecursive (addSubtreeBlocks acc) t.walkFuel k r t = .ok u ∧
      Shifted acc none t (fun l => pathsUp t l t.next r) u ∧ Wf store u :=
  applyToParentsRecursive_shifted (addSubtreeBlocks_shiftFn acc) nofun t.next k r t ho.wf hk
    (ho.wf.chainsBounded hst r) (ho.linked.walkLive ho.wf (ho.wf.isStored hk))
    fun h => absurd h (not_lt.2 hacc.le)

/-- The walk adding what is owed ends normally in the design's counts. -/
theorem addWalk (hst : StoreAcyclic store) (ho : Owing store t r P acc) (hacc : 0 < acc) {k : Nat}
    (hk : t.prefetches k = some r) :
    ∃ u, applyToParentsRecursive (addSubtreeBlocks acc) t.walkFuel k r t = .ok u ∧
      SteadyCounts u ∧ Wf store u := by
  obtain ⟨u, h, hsh, hu⟩ := ho.addWalk_shifted hst hacc hk
  have hsc := SameChains.of_shifted hsh
  refine ⟨u, h, ⟨fun l hl => ?_, fun l hl => ?_, ho.linked.sameChains hsc⟩, hu⟩
  · rw [hsc.isStored] at hl
    rw [hsh.count, hsc.unfetchedBelow]
    exact ho.count l hl
  · rw [hsc.isStored] at hl
    rw [hsh.count]
    rcases Nat.eq_zero_or_pos (pathsUp t l t.next r) with hz | hz
    · simpa [hz] using ho.pos l hl hz
    · have := ho.nonneg l hl
      have : 0 < acc * (pathsUp t l t.next r : Int) := Int.mul_pos hacc (by exact_mod_cast hz)
      omega

end Owing

section Children

variable [DecidableEq A] (act : ActionOps A) (hst : StoreAcyclic store) {t : BlockPrefetcher A}
  {r : Nat} {P : BlockPointer} {isNew : Bool}

include hst in
/-- Handling a block that is no tail, from nothing owed: the request loop ends owing the
    `numBlocks` it returns, and with nothing owed the counts are the design's. -/
theorem handlePrefetch_owing (ho : Owing store t r P 0) (hP : (t.heap r).req.ptr = P)
    (hf : isNew = true → Fresh t P []) {b : Block} (hb : b = store P.id) (ht : b.isTail = false)
    (action : A) :
    ∃ acc u, handlePrefetch act r isNew action b t = .ok (some (acc, false), u) ∧
      Owing store u r P acc ∧ (acc = 0 → SteadyCounts u) := by
  have hne : b ≠ .common := fun h => by rw [h] at ht; cases ht
  obtain ⟨q, qs, hqs⟩ : ∃ q qs, b.requestOrder = q :: qs := by
    rw [Block.isTail_eq_isEmpty, ← b.requestOrder_perm.isEmpty_eq] at ht
    cases h : b.requestOrder with
    | nil => rw [h] at ht; cases ht
    | cons q qs => exact ⟨q, qs, rfl⟩
  have hchild : ∀ q ∈ b.requestOrder, ChildOf store P.id q.id := fun q hq =>
    ⟨q, hb ▸ b.requestOrder_perm.subset hq, rfl⟩
  rw [handlePrefetch_eq act r isNew action hne t, hP]
  obtain ⟨acc, u, h, ho'⟩ := requestEach_owing hst act
    (calculatePriority (t.heap r).req.priority (act.childAction action b)) (act.childAction action b)
    b.requestOrder 0 [] t ho hf hchild
  rw [h, hqs]
  refine ⟨acc, u, rfl, ho', fun h0 => ?_⟩
  subst h0
  obtain ⟨u', h', -, he, -⟩ := requestEach_children act
    (calculatePriority (t.heap r).req.priority (act.childAction action b)) isNew
    (act.childAction action b) b.requestOrder 0 [] t ho.wf.unshared (by rw [ho.stored]; rfl)
  rw [h] at h'
  obtain rfl : u = u' := (Prod.mk.inj (Except.ok.inj h')).2
  exact ho'.steadyCounts (Attached.of_hasEdge ho'.wf (he q (by simp [hqs, firstOfEachID])))

include hst in
/-- The end of `run`'s request case from nothing owed, for a block that is no tail: enumerating
    its children and adding their counts up the tree ends normally in the design's counts. -/
theorem prefetchChildren_steady {req : PrefetchRequest A} {solo : Nat → Bool} (ho : Owing store t r P 0)
    (hP : (t.heap r).req.ptr = P) (hreq : req.ptr.id = P.id) (hf : isNew = true → Fresh t P [])
    (ht : (store req.ptr.id).isTail = false) :
    ∃ u, prefetchChildren act req solo isNew (store req.ptr.id) r t = .ok u ∧ SteadyCounts u ∧
      Wf store u := by
  rw [hreq] at ht ⊢
  obtain ⟨acc, u, h, ho', h0⟩ := handlePrefetch_owing act hst ho hP hf rfl ht req.action
  have hk : (if isNew = true then u.setPrefetch req.ptr.id r else u) = u := by
    split
    · exact setPrefetch_of_eq (hreq ▸ ho'.stored)
    · rfl
  have hok : ∀ f : Option (Int × Bool) × BlockPrefetcher A → Except Abort (BlockPrefetcher A),
      (Except.ok (some (acc, false), u) >>= f) = f (some (acc, false), u) := fun _ => rfl
  simp only [prefetchChildren, h, hok, Bool.false_eq_true, if_false, hk]
  by_cases hz : acc = 0
  · exact ⟨u, by rw [if_pos hz]; rfl, h0 hz, ho'.wf⟩
  · rw [if_neg hz]
    exact ho'.addWalk hst (lt_of_le_of_ne ho'.acc_nonneg (Ne.symm hz)) (hreq ▸ ho'.stored)

end Children

end KbfsPrefetcher
