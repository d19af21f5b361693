import KbfsPrefetcher.Complete
import KbfsPrefetcher.Reschedule

/-
  The design's count invariant over whole runs.

  Model: a steady event (`Event.isSteady`) is a request that asks for a wait channel, or one
  whose block the cache does not report finished and whose action prefetches the block. So no
  cancel, no reschedule, and no request the prefetcher skips. `SteadyReachable` holds of
  every state that a run of steady events reaches from `newBlockPrefetcher`, under any order
  of map iteration.

  Proved, over any block store with no cycle:
  * `handleRequest_steady`. From a well-formed state with the design's counts
    (`SteadyCounts`), a steady request ends normally, again with the design's counts. There
    is one lemma per way the request case goes on:
    - a tail block completes (`finishRequest_steady`);
    - a block without a record gets a triggered one with count 0 (`owing_of_new`);
    - an untriggered record is decremented up the tree and triggered
      (`owing_of_untriggered`);
    - a triggered record whose action changes is enumerated again (`SteadyCounts.owing`).
    `updateRecord_steady` collects these cases, and `prefetchChildren_steady` finishes the
    enumeration.
  * `steadyReachable_counts`. In every steady-reachable state, each stored record's
    `subtreeBlockCount` is the design's count and is positive.
  * `steadyReachable_linked`. No pointer is stale: every parent pointer of a stored record
    names a stored, triggered record.
  * `steadyReachable_handleEvent_ok`. No steady event panics.
  * `steadyReachable_drained`. The tree is empty exactly when no block is left to fetch.

  Chains are counted with their multiplicity, so these results hold for stores with
  diamonds too.
-/

namespace KbfsPrefetcher

open BlockPrefetcher

variable {A : Type} {store : Nat → Block}

/-! ## Starting the enumeration -/

section Start

variable (hst : StoreAcyclic store) {t : BlockPrefetcher A}

/-- A triggered record starts the enumeration owing nothing. -/
theorem SteadyCounts.owing (h : SteadyCounts t) (ht : Wf store t) {r : Nat} {P : BlockPointer}
    (hR : t.prefetches P.id = some r) (htr : (t.heap r).subtreeTriggered = true) :
    Owing store t r P 0 where
  wf := ht
  stored := hR
  triggered := htr
  acc_nonneg := le_rfl
  count l hl := by rw [zero_mul, add_zero]; exact h.count l hl
  nonneg l hl := (h.pos l hl).le
  pos l hl _ := h.pos l hl
  ready _ := .inl h.pos
  linked := h.linked

include hst in
/-- The record `updateRecord` makes for a block without one, triggered with count 0, starts the
    enumeration owing nothing, and no record points to it. -/
theorem owing_of_new (h : SteadyCounts t) (ht : Wf store t) {req : PrefetchRequest A}
    (hn : t.prefetches req.ptr.id = none) :
    Owing store (withRecord t req.ptr.id (newPrefetch 0 true req)) t.next req.ptr 0 ∧
      Fresh (withRecord t req.ptr.id (newPrefetch 0 true req)) req.ptr [] := by
  have hfresh := h.linked.ne_of_none hn
  have hU : ∀ a, unfetchedBelow (withRecord t req.ptr.id (newPrefetch 0 true req)) a =
      unfetchedBelow t a := fun a => by
    simpa [newPrefetch] using unfetchedBelow_withRecord ht (ht.chainsBounded hst) rfl hn rfl hfresh a
  have hF : Fresh (withRecord t req.ptr.id (newPrefetch 0 true req)) req.ptr [] := fun l hl q hq e => by
    rcases (isStored_withRecord_iff rfl hn).1 hl with hl | rfl
    · rw [withRecord_heap_of_lt (ht.lt_next hl)] at hq
      exact absurd e (hfresh l hl q hq)
    · simp [newPrefetch, allParents] at hq
  refine ⟨⟨(ht.alloc rfl).setPrefetch (by simp) (by simp [newPrefetch]) (by simp [newPrefetch]),
    by simp, by simp [newPrefetch], le_rfl, fun l hl => ?_, fun l hl => ?_, fun l hl hz => ?_,
    fun _ => .inr fun ⟨l, hl, q, hq, e⟩ => by simpa using hF l hl q hq e,
    h.linked.withRecord ht hn rfl rfl⟩, hF⟩
  · rw [zero_mul, add_zero, hU]
    rcases (isStored_withRecord_iff rfl hn).1 hl with hl | rfl
    · rw [withRecord_heap_of_lt (ht.lt_next hl)]; exact h.count l hl
    · simp [newPrefetch, unfetchedBelow_next ht]
  · rcases (isStored_withRecord_iff rfl hn).1 hl with hl | rfl
    · rw [withRecord_heap_of_lt (ht.lt_next hl)]; exact (h.pos l hl).le
    · simp [newPrefetch]
  · rcases (isStored_withRecord_iff rfl hn).1 hl with hl | rfl
    · rw [withRecord_heap_of_lt (ht.lt_next hl)]; exact h.pos l hl
    · rw [show (withRecord t req.ptr.id (newPrefetch 0 true req)).next = t.next + 1 from rfl,
        pathsUp_withRecord_self rfl, if_pos rfl] at hz
      cases hz

/-- Marking a record triggered keeps the records linked. -/
theorem Linked.trigger {u : BlockPrefetcher A} (h : Linked u) {R : Nat} {g : Prefetch A → Prefetch A}
    (hp : (g (u.heap R)).parents = (u.heap R).parents) (hr : (g (u.heap R)).req.ptr = (u.heap R).req.ptr)
    (htr : (g (u.heap R)).subtreeTriggered = true) : Linked (u.modify R g) := by
  have hpar : ∀ l, ((u.modify R g).heap l).parents = (u.heap l).parents := fun l => by
    by_cases hl : l = R <;> simp [hl, hp]
  refine ⟨fun l hl q hq => ?_, fun l hl => ?_⟩
  · rw [isStored_modify hr] at hl
    rw [hpar] at hq
    obtain ⟨p, hp', htp⟩ := h.live l hl q hq
    refine ⟨p, hp', ?_⟩
    by_cases hpR : p = R
    · subst hpR; simpa using htr
    · simpa [hpR] using htp
  · rw [isStored_modify hr] at hl
    rw [hpar]
    exact h.full l hl

include hst in
/-- The decrement walk from an untriggered record: one shift by `-1` per chain from it. -/
theorem SteadyCounts.decrementWalk (h : SteadyCounts t) (ht : Wf store t) {k R : Nat}
    (hR : t.prefetches k = some R) (hun : (t.heap R).subtreeTriggered = false) :
    t.unfetchedAt R = true ∧ ∃ u, applyToParentsRecursive decrementPrefetch t.walkFuel k R t = .ok u ∧
      Shifted (-1) none t (fun l => pathsUp t l t.next R) u ∧ Wf store u := by
  have hU : t.unfetchedAt R = true := by simp [BlockPrefetcher.unfetchedAt, ht.isStored hR, hun]
  exact ⟨hU, applyToParentsRecursive_shifted decrementPrefetch_shiftFn nofun t.next k R t ht hR
    (ht.chainsBounded hst R) (h.linked.walkLive ht (ht.isStored hR)) (h.budget ht hU)⟩

include hst in
/-- An untriggered record, decremented up every chain and then triggered (with the combined
    action `a`), starts the enumeration owing nothing, and no record points to it. -/
theorem owing_of_untriggered (h : SteadyCounts t) (ht : Wf store t) {k R : Nat}
    (hR : t.prefetches k = some R) (hun : (t.heap R).subtreeTriggered = false) (a : A) :
    ∃ u, applyToParentsRecursive decrementPrefetch t.walkFuel k R t = .ok u ∧
      ((u.modify R fun pp => { pp with subtreeTriggered := true, req := { pp.req with action := a } }).heap
        R).req.ptr = (t.heap R).req.ptr ∧
      Owing store (u.modify R fun pp => { pp with subtreeTriggered := true, req := { pp.req with action := a } })
        R ((u.modify R fun pp => { pp with subtreeTriggered := true, req := { pp.req with action := a } }).heap R).req.ptr 0 := by
  have hRs := ht.isStored hR
  obtain ⟨hU, u, hu, hsh, hwu⟩ := h.decrementWalk hst ht hR hun
  have hsc := SameChains.of_shifted hsh
  refine ⟨u, hu, ?_⟩
  generalize hg : (fun pp : Prefetch A => { pp with subtreeTriggered := true, req := { pp.req with action := a } }) = g
  have hgp : (g (u.heap R)).parents = (u.heap R).parents := by rw [← hg]
  have hgr : (g (u.heap R)).req.ptr = (u.heap R).req.ptr := by rw [← hg]
  have hgt : (g (u.heap R)).subtreeTriggered = true := by rw [← hg]
  have hgc : ∀ l, ((u.modify R g).heap l).subtreeBlockCount = (u.heap l).subtreeBlockCount := fun l => by
    by_cases hl : l = R <;> simp [hl, ← hg]
  have hst' : ∀ l, (u.modify R g).isStored l = t.isStored l := fun l => by
    rw [isStored_modify hgr, hsc.isStored]
  have hN : ∀ l, pathsUp (u.modify R g) l (u.modify R g).next R = pathsUp t l t.next R := fun l => by
    rw [pathsUp_modify hgp, modify_next, hsc.next, hsc.pathsUp]
  have hUB : ∀ l, unfetchedBelow t l = unfetchedBelow (u.modify R g) l + pathsUp t l t.next R :=
    fun l => by
      rw [← hsc.unfetchedBelow, unfetchedBelow_trigger hwu (by rw [hsc.unfetchedAt]; exact hU) hgp hgt,
        hsc.next, hsc.pathsUp]
  have hP : ((u.modify R g).heap R).req.ptr = (t.heap R).req.ptr := by simp [hgr, hsc.ptr]
  refine ⟨hP, hwu.modify (by rw [hgr]) (by rw [hgp]) (by rw [← hg]), ?_, by simp [hgt], le_rfl,
    fun l hl => ?_, fun l hl => ?_, fun l hl hz => ?_, fun _ => .inr fun ⟨l, hl, q, hq, e⟩ => ?_,
    (h.linked.sameChains hsc).trigger hgp hgr hgt⟩
  · rw [hP, ht.keyed _ _ hR, modify_prefetches, hsc.prefetches]; exact hR
  · rw [hst'] at hl
    have := hUB l
    have := h.count l hl
    rw [hgc, hsh.count, hN]
    omega
  · rw [hst'] at hl
    have := pathsUp_le_unfetchedBelow ht hU l
    have := h.count l hl
    rw [hgc, hsh.count]
    omega
  · rw [hst'] at hl
    rw [hN] at hz
    have := h.pos l hl
    rw [hgc, hsh.count, hz]
    simpa using this
  · rw [hst'] at hl
    have hq' : q ∈ allParents (t.heap l).parents := by
      rw [← hsc.parents]; by_cases hlR : l = R <;> simp_all
    refine h.linked.not_attached (P := (t.heap R).req.ptr) (fun p hp => ?_) ⟨l, hl, q, hq', by rw [e, hP]⟩
    rw [ht.keyed _ _ hR, hR] at hp
    cases hp
    exact hun

end Start

/-- What `updateRecord` hands on to the rest of the request case: the design's counts when
    the case stops there; otherwise a record of the request's ID that owes nothing and that,
    when new, no record points to. -/
def ReadyToEnumerate (store : Nat → Block) (req : PrefetchRequest A) (isNew : Bool) :
    Option Nat × BlockPrefetcher A → Prop
  | (none, s) => SteadyCounts s
  | (some r, s) => Owing store s r (s.heap r).req.ptr 0 ∧ (s.heap r).req.ptr.id = req.ptr.id ∧
      (isNew = true → Fresh s (s.heap r).req.ptr [])

/-! ## The request case -/

section Request

variable [DecidableEq A] (act : ActionOps A) (hst : StoreAcyclic store) {t : BlockPrefetcher A}

omit [DecidableEq A] in
/-- `stopIfNeeded` emits at most a reschedule request. -/
theorem stopIfNeeded_sameChains (req : PrefetchRequest A) (space : DiskCacheSpace) (s : BlockPrefetcher A) :
    SameChains s (stopIfNeeded act req space s).2 ∧
      ∀ l, ((stopIfNeeded act req space s).2.heap l).subtreeBlockCount = (s.heap l).subtreeBlockCount := by
  unfold stopIfNeeded
  split
  · split
    · exact ⟨.emit _ _, fun _ => rfl⟩
    · exact ⟨.refl s, fun _ => rfl⟩
  · exact ⟨.refl s, fun _ => rfl⟩

include hst in
/-- `updateRecord` on a fetched block with the design's counts ends normally, ready for the
    enumeration or with the design's counts. -/
theorem updateRecord_steady (h : SteadyCounts t) (ht : Wf store t) {req : PrefetchRequest A}
    {waiting : Option Nat} (hw : t.prefetches req.ptr.id = waiting) :
    (updateRecord act req waiting t).Holds (fun _ => False) (ReadyToEnumerate store req waiting.isNone) := by
  cases waiting with
  | none =>
    obtain ⟨ho, hf⟩ := owing_of_new hst h ht hw
    have hp : ((withRecord t req.ptr.id (newPrefetch 0 true req)).heap t.next).req.ptr = req.ptr := by
      simp [newPrefetch]
    show ReadyToEnumerate store req true (some t.next, withRecord t req.ptr.id (newPrefetch 0 true req))
    exact ⟨hp ▸ ho, by rw [hp], fun _ => hp ▸ hf⟩
  | some R =>
    have hRs := ht.isStored hw
    have hk : (t.heap R).req.ptr.id = req.ptr.id := ht.keyed _ _ hw
    have hpos := h.pos R hRs
    simp only [updateRecord]
    refine Except.Holds.ite (fun htr => ?_) fun hun => ?_
    · rw [if_neg hpos.ne', Except.Holds.pure_bind]
      refine Except.Holds.ite (fun _ => ?_) fun _ => h
      have hsc : SameChains t (t.modify R fun pp =>
          { pp with req := { pp.req with action := act.combine (t.heap R).req.action req.action } }) :=
        SameChains.modify t R rfl rfl rfl
      have ho := (h.owing ht (hk ▸ hw : t.prefetches (t.heap R).req.ptr.id = some R) htr).sameChains hsc
        (fun l => by by_cases hl : l = R <;> simp [hl])
        (ht.modify rfl rfl rfl)
      have hp : ((t.modify R fun pp =>
          { pp with req := { pp.req with action := act.combine (t.heap R).req.action req.action } }).heap R).req.ptr =
          (t.heap R).req.ptr := by simp
      exact ⟨hp ▸ ho, by rw [hp, hk], nofun⟩
    · refine Except.Holds.ite (fun h0 => absurd h0 hpos.ne') fun _ => ?_
      obtain ⟨u, hu, hP, ho⟩ := owing_of_untriggered hst h ht hw (by simpa using hun)
        (act.combine (t.heap R).req.action req.action)
      simp only [Except.Holds.pure_bind]
      rw [hu]
      exact ⟨ho, by rw [hP, hk], nofun⟩

include hst in
/-- A steady request on a state with the design's counts ends normally, again with the design's
    counts. -/
theorem handleRequest_steady {s : BlockPrefetcher A} (h : SteadyCounts s) (hs : Wf store s)
    {req : PrefetchRequest A} {fetched : Bool} {space : DiskCacheSpace} {solo : Nat → Bool}
    (hsteady : req.sendCh = true ∨
      req.prefetchStatus ≠ .finishedPrefetch ∧ act.prefetch req.action (store req.ptr.id) = true) :
    (handleRequest act store req fetched space solo s).Holds (fun _ => False) SteadyCounts := by
  have h₀ := h.sameChains (.clearRescheduleState s req.ptr.id) fun _ => by simp
  have hs₀ := hs.of_within (Within.clearRescheduleState s req.ptr.id)
  have hw : (s.clearRescheduleState req.ptr.id).prefetches req.ptr.id = s.prefetches req.ptr.id := by
    simp
  simp only [handleRequest, pure_bind, bind_pure]
  refine Except.Holds.ite (fun _ => h₀.sameChains (.emit _ _) fun _ => rfl) fun hsend => ?_
  obtain ⟨hfin, hpre⟩ := hsteady.resolve_left hsend
  refine Except.Holds.ite (fun _ => h₀) fun _ => ?_
  refine Except.Holds.ite (fun htail => finishRequest_steady hst h₀ hs₀ hw (by simpa [hfin] using htail))
    fun htail => ?_
  refine Except.Holds.ite (fun hp => absurd hpre (by simpa using hp)) fun _ => ?_
  refine Except.Holds.ite (fun _ => h₀) fun _ => ?_
  obtain ⟨hsc, hcc⟩ := stopIfNeeded_sameChains act req space (s.clearRescheduleState req.ptr.id)
  obtain ⟨hsw, hsp⟩ := stopIfNeeded_spec act req space (s.clearRescheduleState req.ptr.id)
  refine Except.Holds.ite (fun _ => h₀.sameChains hsc hcc) fun _ => ?_
  refine Except.Holds.bind (updateRecord_steady act hst (h₀.sameChains hsc hcc) (hs₀.of_within hsw)
    (by rw [hsp, hw])) fun x hx => ?_
  obtain ⟨_ | r, t⟩ := x
  · exact hx
  · obtain ⟨ho, hk, hf⟩ := hx
    obtain ⟨u, hu, hcu, -⟩ := prefetchChildren_steady act hst ho rfl hk.symm hf
      (by simpa [hfin] using htail)
    show (prefetchChildren act req solo _ (store req.ptr.id) r t).Holds _ _
    rw [hu]
    exact hcu

end Request

/-! ## Reordered parent maps -/

theorem Prefetch.SameParents.allParents_perm {r r' : Prefetch A} (h : r.SameParents r') :
    (allParents r'.parents).Perm (allParents r.parents) := by
  obtain ⟨-, ps, hp, hf⟩ := h
  refine List.Perm.trans ?_ (hp.flatMap_right _)
  clear hp
  generalize r'.parents = qs at hf
  induction hf with
  | nil => exact .refl _
  | cons hb _ ih =>
    simp only [allParents, List.flatMap_cons] at ih ⊢
    exact hb.2.symm.append ih

theorem Prefetch.SameParents.full {r r' : Prefetch A} (h : r.SameParents r')
    (hr : ∀ b ∈ r.parents, b.2 ≠ []) : ∀ b ∈ r'.parents, b.2 ≠ [] := by
  obtain ⟨-, ps, hp, hf⟩ := h
  have hps : ∀ b ∈ ps, b.2 ≠ [] := fun b hb => hr b (hp.subset hb)
  clear hp hr
  generalize r'.parents = qs at hf
  induction hf with
  | nil => exact fun _ h => nomatch h
  | cons hb _ ih =>
    rintro b (_ | ⟨_, hq⟩)
    · exact fun h0 => hps _ (.head _) (List.Perm.eq_nil (h0 ▸ hb.2))
    · exact ih (fun b hb => hps b (.tail _ hb)) b hq

/-- Go's map iteration order changes no count. -/
theorem SteadyCounts.reorder {s : BlockPrefetcher A} (h : SteadyCounts s) {heap : Nat → Prefetch A}
    (hh : ∀ loc, (s.heap loc).SameParents (heap loc)) : SteadyCounts { s with heap } := by
  have hst : ∀ l, ({ s with heap } : BlockPrefetcher A).isStored l = s.isStored l := fun l => by
    simp [BlockPrefetcher.isStored, (hh l).req]
  have hcnt : ∀ l, (heap l).subtreeBlockCount = (s.heap l).subtreeBlockCount := fun l => by
    rw [(hh l).1]
  have htr : ∀ l, (heap l).subtreeTriggered = (s.heap l).subtreeTriggered := fun l => by
    rw [(hh l).1]
  have hU : ∀ a, unfetchedBelow { s with heap } a = unfetchedBelow s a := fun a =>
    unfetchedBelow_congr rfl (fun v => by simp [BlockPrefetcher.unfetchedAt, hst, htr]) fun v _ =>
      pathsUp_congr (fun x _ => ⟨(hh x).allParents_perm, fun _ _ => by rfl⟩) _
  refine ⟨fun l hl => ?_, fun l hl => ?_, fun l hl q hq => ?_, fun l hl => ?_⟩ <;> rw [hst] at hl
  · show (heap l).subtreeBlockCount = _
    rw [hcnt, hU]; exact h.count l hl
  · show 0 < (heap l).subtreeBlockCount
    rw [hcnt]; exact h.pos l hl
  · obtain ⟨p, hp, htp⟩ := h.linked.live l hl q ((hh l).allParents_subset hq)
    exact ⟨p, hp, by show (heap p).subtreeTriggered = true; rw [htr]; exact htp⟩
  · exact (hh l).full (h.linked.full l hl)

theorem SteadyCounts.empty [Inhabited A] : SteadyCounts (BlockPrefetcher.empty : BlockPrefetcher A) :=
  have hn : ∀ l, (BlockPrefetcher.empty : BlockPrefetcher A).isStored l = false := fun _ => rfl
  ⟨fun l hl => by simp [hn] at hl, fun l hl => by simp [hn] at hl,
    ⟨fun l hl => by simp [hn] at hl, fun l hl => by simp [hn] at hl⟩⟩

/-! ## Runs of steady events -/

section Runs

variable [DecidableEq A]

/-- A steady event: a request that asks for a wait channel, or one whose block the cache does
    not report finished and whose action prefetches the block. -/
def Event.isSteady (act : ActionOps A) (store : Nat → Block) : Event A → Bool
  | .request req _ _ _ => req.sendCh ||
      (req.prefetchStatus != .finishedPrefetch && act.prefetch req.action (store req.ptr.id))
  | .cancel _ => false
  | .reschedule _ _ => false

/-- The states a run of steady events reaches from `newBlockPrefetcher`, under any order of map
    iteration. -/
inductive SteadyReachable [Inhabited A] (act : ActionOps A) (store : Nat → Block) :
    BlockPrefetcher A → Prop
  | init : SteadyReachable act store .empty
  | step {s s' : BlockPrefetcher A} (e : Event A) :
      SteadyReachable act store s → e.isSteady act store = true →
      handleEvent act store e s = .ok s' → SteadyReachable act store s'
  | reorder {s : BlockPrefetcher A} (heap : Nat → Prefetch A) :
      SteadyReachable act store s → (∀ loc, (s.heap loc).SameParents (heap loc)) →
      SteadyReachable act store { s with heap }

variable {act : ActionOps A} [Inhabited A]

theorem SteadyReachable.reachable {s : BlockPrefetcher A} (h : SteadyReachable act store s) :
    Reachable act store s := by
  induction h with
  | init => exact .init
  | step e _ _ he ih => exact .step e ih he
  | reorder heap _ hh ih => exact .reorder heap ih hh

/-- A run of steady events from a steady-reachable state ends in one. -/
theorem SteadyReachable.runEvents {es : List (Event A)} {s s' : BlockPrefetcher A}
    (h : SteadyReachable act store s) (hes : ∀ e ∈ es, e.isSteady act store = true)
    (he : KbfsPrefetcher.runEvents act store es s = .ok s') : SteadyReachable act store s' := by
  induction es generalizing s with
  | nil => cases he; exact h
  | cons e es ih =>
    simp only [KbfsPrefetcher.runEvents, List.foldlM_cons] at he
    obtain ⟨s₁, h₁, he⟩ := Except.bind_eq_ok he
    exact ih (.step e h (hes e (.head _)) h₁) (fun e' he' => hes e' (.tail _ he')) he

variable (hst : StoreAcyclic store)

omit [Inhabited A] in
include hst in
/-- Every steady event is handled normally, keeping the design's counts. -/
theorem handleEvent_steady {s : BlockPrefetcher A} (h : SteadyCounts s) (hs : Wf store s)
    {e : Event A} (he : e.isSteady act store = true) :
    (handleEvent act store e s).Holds (fun _ => False) SteadyCounts := by
  cases e with
  | request req fetched space solo =>
    exact handleRequest_steady act hst h hs (by simpa [Event.isSteady] using he)
  | cancel => cases he
  | reschedule => cases he

include hst in
theorem SteadyReachable.steadyCounts {s : BlockPrefetcher A} (h : SteadyReachable act store s) :
    SteadyCounts s := by
  induction h with
  | init => exact SteadyCounts.empty
  | step e hr he hok ih => exact (handleEvent_steady hst ih (reachable_wf act hr.reachable) he).of_ok hok
  | reorder heap _ hh ih => exact ih.reorder hh

/-! ## What holds in every steady-reachable state -/

theorem childOf_diamondStore {p c : Nat} :
    ChildOf diamondStore p c ↔ p = 1 ∧ (c = 2 ∨ c = 3) ∨ (p = 2 ∨ p = 3) ∧ c = 4 := by
  unfold ChildOf diamondStore
  by_cases h1 : p = 1 <;> by_cases h2 : p = 2 <;> by_cases h3 : p = 3 <;>
    simp [h1, h2, h3, Block.childPtrs, eq_comm]

theorem diamondStore_acyclic : StoreAcyclic diamondStore :=
  StoreAcyclic.of_lt fun _ _ h => by
    rcases childOf_diamondStore.1 h with ⟨rfl, rfl | rfl⟩ | ⟨rfl | rfl, rfl⟩ <;> decide

/-- Blocks 1, 2 and 3 of `diamondStore` (a diamond, which the design comment assumes never
    happens) fetched: block 4's record hangs below both 2 and 3. -/
def diamondRun : List (Event Unit) := [fetchEvent 1, fetchEvent 2, fetchEvent 3]

theorem diamondRun_steady : ∀ e ∈ diamondRun, e.isSteady ActionOps.unit diamondStore = true := by
  decide

include hst in
/-- In every state a run of steady events reaches, each stored record's count is the design's
    count, the chains from unfetched records up to it, and is positive. -/
theorem steadyReachable_counts {s : BlockPrefetcher A} (h : SteadyReachable act store s) :
    ∀ l, s.isStored l →
      (s.heap l).subtreeBlockCount = unfetchedBelow s l ∧ 0 < (s.heap l).subtreeBlockCount :=
  fun l hl => ⟨(h.steadyCounts hst).count l hl, (h.steadyCounts hst).pos l hl⟩

/-- After `diamondRun` the record of block 1 counts block 4 twice, once per chain, as the
    design's count does. -/
theorem diamondRun_counts :
    ∃ s, SteadyReachable ActionOps.unit diamondStore s ∧ s.prefetches 1 = some 0 ∧
      (s.heap 0).subtreeBlockCount = 2 ∧
      ∀ l, s.isStored l →
        (s.heap l).subtreeBlockCount = unfetchedBelow s l ∧ 0 < (s.heap l).subtreeBlockCount := by
  have hr := SteadyReachable.runEvents .init diamondRun_steady
    (show runEvents ActionOps.unit diamondStore diamondRun .empty = _ from rfl)
  exact ⟨_, hr, rfl, rfl, steadyReachable_counts diamondStore_acyclic hr⟩

include hst in
/-- In every state a run of steady events reaches, no parent pointer is stale: each one names a
    stored, triggered record. -/
theorem steadyReachable_linked {s : BlockPrefetcher A} (h : SteadyReachable act store s) :
    ∀ l, s.isStored l → ∀ q ∈ allParents (s.heap l).parents,
      ∃ p, s.prefetches q.id = some p ∧ (s.heap p).subtreeTriggered = true :=
  (h.steadyCounts hst).linked.live

/-- After `diamondRun` block 4's record, at 3, lists both of its parents, and each names a
    stored, triggered record. -/
theorem diamondRun_linked :
    ∃ s, SteadyReachable ActionOps.unit diamondStore s ∧ s.prefetches 4 = some 3 ∧
      (s.heap 3).parents = [(0, [⟨2, 0⟩, ⟨3, 0⟩])] ∧
      ∀ l, s.isStored l → ∀ q ∈ allParents (s.heap l).parents,
        ∃ p, s.prefetches q.id = some p ∧ (s.heap p).subtreeTriggered = true := by
  have hr := SteadyReachable.runEvents .init diamondRun_steady
    (show runEvents ActionOps.unit diamondStore diamondRun .empty = _ from rfl)
  exact ⟨_, hr, rfl, rfl, steadyReachable_linked diamondStore_acyclic hr⟩

include hst in
/-- From every state a run of steady events reaches, every steady event is handled without a
    panic. -/
theorem steadyReachable_handleEvent_ok {s : BlockPrefetcher A} (h : SteadyReachable act store s)
    {e : Event A} (he : e.isSteady act store = true) : ∃ s', handleEvent act store e s = .ok s' :=
  let ⟨s', hs', _⟩ :=
    Except.Holds.exists_ok (handleEvent_steady hst (h.steadyCounts hst) (reachable_wf act h.reachable) he)
  ⟨s', hs'⟩

/-- After `diamondRun`, fetching block 4 completes it up both chains without a panic. -/
theorem diamondRun_fetch_ok :
    ∃ s, SteadyReachable ActionOps.unit diamondStore s ∧
      (fetchEvent 4).isSteady ActionOps.unit diamondStore = true ∧
      ∃ s', handleEvent ActionOps.unit diamondStore (fetchEvent 4) s = .ok s' := by
  have hr := SteadyReachable.runEvents .init diamondRun_steady
    (show runEvents ActionOps.unit diamondStore diamondRun .empty = _ from rfl)
  exact ⟨_, hr, rfl, steadyReachable_handleEvent_ok diamondStore_acyclic hr rfl⟩

include hst in
/-- In every state a run of steady events reaches, the tree is empty exactly when no stored
    record is left unfetched: no record outlives the blocks below it. -/
theorem steadyReachable_drained {s : BlockPrefetcher A} (h : SteadyReachable act store s) :
    (∀ id, s.prefetches id = none) ↔ ∀ l, s.unfetchedAt l = false :=
  ⟨fun hn l => by simp [BlockPrefetcher.unfetchedAt, BlockPrefetcher.isStored, hn],
    (h.steadyCounts hst).drained (reachable_wf act h.reachable)⟩

/-- Fetching block 4 after `diamondRun` empties the tree. -/
theorem diamondRun_drained :
    ∃ s, SteadyReachable ActionOps.unit diamondStore s ∧ s.prefetches 1 = none ∧
      s.prefetches 4 = none ∧ ((∀ id, s.prefetches id = none) ↔ ∀ l, s.unfetchedAt l = false) := by
  have hr := SteadyReachable.runEvents .init
    (show ∀ e ∈ diamondRun ++ [fetchEvent 4], e.isSteady ActionOps.unit diamondStore = true by decide)
    (show runEvents ActionOps.unit diamondStore (diamondRun ++ [fetchEvent 4]) .empty = _ from rfl)
  exact ⟨_, hr, rfl, rfl, steadyReachable_drained diamondStore_acyclic hr⟩

end Runs

end KbfsPrefetcher
