import KbfsPrefetcher.Edges

/-
  Walks whose function removes the record it is applied to: `rescheduleTopBlock` is one.

  Such a walk from the record at `loc` of `t` removes every record on or above `loc` in
  `t`, not only those it calls itself at: a parent found without a record was removed
  earlier in the same walk, and the records the walk has removed are closed upwards along
  the parent edges of `t` (`UpClosed`). The loop at a record visits every parent pointer,
  so when it ends each parent ID has lost its record (`visitAllParents_removes`); a record
  other than the one the loop runs at is written only by its own walk, which removes it
  (`Untouched`); and a `rescheduled` entry changes only at the ID of a removed record, to
  what the function gives for that record's request and old entry (`EntriesFrom`). A
  record none of whose parent pointers names a stored record has each of them dropped by
  its loop, which leaves its parent map empty when the function is applied to it
  (`visitAllParents_stale`), so it gets what the function gives a record without parents
  (`top`). `applyToParentsRecursive_removal` puts these together, by induction on the
  depth bound: with a depth argument and a function that fails at no stored record, the
  walk ends normally.
-/

namespace KbfsPrefetcher

open BlockPrefetcher

variable {A : Type} {store : Nat → Block}

/-! ## Removed records -/

/-- The record at `l` of `t` is no longer stored under its ID in `u`. -/
def Removed (t u : BlockPrefetcher A) (l : Nat) : Prop :=
  u.prefetches (t.heap l).req.ptr.id ≠ some l

theorem Removed.mono {t u v : BlockPrefetcher A} {l : Nat} (h : Removed t u l) (hv : v.Within u) :
    Removed t v l :=
  fun hv' => h (hv.prefetches _ _ hv')

/-- A removed record of `t` that was stored there leaves its ID without a record. -/
theorem Removed.eq_none {t u : BlockPrefetcher A} {l : Nat} (h : Removed t u l) (hu : u.Within t)
    (hl : t.prefetches (t.heap l).req.ptr.id = some l) : u.prefetches (t.heap l).req.ptr.id = none := by
  cases hv : u.prefetches (t.heap l).req.ptr.id with
  | none => rfl
  | some l' =>
    obtain rfl : l' = l := Option.some.inj ((hu.prefetches _ _ hv).symm.trans hl)
    exact absurd hv h

theorem BlockPrefetcher.Within.prefetches_none {s s' : BlockPrefetcher A} (h : s'.Within s) {i : Nat}
    (hi : s.prefetches i = none) : s'.prefetches i = none := by
  cases hx : s'.prefetches i with
  | none => rfl
  | some l => simpa [hi] using h.prefetches _ _ hx

/-- A record that ends a chain of parent edges of at least one edge is stored. -/
theorem ParentEdge.reflTransGen_stored {s : BlockPrefetcher A} {p l : Nat} (hs : Wf store s)
    (hp : ∃ i, s.prefetches i = some p) (h : Relation.ReflTransGen (ParentEdge s) p l) :
    s.prefetches (s.heap l).req.ptr.id = some l := by
  obtain ⟨i, hi⟩ : ∃ i, s.prefetches i = some l := by
    rcases Relation.ReflTransGen.cases_tail h with rfl | ⟨c, -, ⟨q, -, hq⟩⟩
    · exact hp
    · exact ⟨q.id, hq⟩
  rwa [hs.keyed _ _ hi]

/-! ## The loop visits every parent -/

section Loop

variable {recur : WalkFn A BlockPointer} {loc fuel : Nat} {E : Abort → Prop}
  {Enough : Nat → Nat → BlockPrefetcher A → Prop}

/-- What each call of the loop at a parent still stored must do, given enough depth: keep
    `Wf`, end within its start and remove the parent's ID. -/
def RecurRemoves (store : Nat → Block) (Enough : Nat → Nat → BlockPrefetcher A → Prop) (fuel : Nat)
    (recur : WalkFn A BlockPointer) : Prop :=
  ∀ w pptr parent w', Wf store w → w.prefetches pptr.id = some parent → Enough fuel parent w →
    recur pptr parent w = .ok w' → Wf store w' ∧ w'.Within w ∧ w'.prefetches pptr.id = none

/-- The inner loop of the walk at the record `loc` of `t`, over pointers `ps` of its map,
    removes the ID of every pointer in them. -/
theorem visitParents_removes (hE : FuelSpec store E Enough) (hrec : RecurRemoves store Enough fuel recur)
    {t : BlockPrefetcher A} (ht : Wf store t) (hen : Enough (fuel + 1) loc t) (n : Nat) :
    ∀ (ps : List BlockPointer) {w v : BlockPrefetcher A}, (∀ q ∈ ps, q ∈ allParents (t.heap loc).parents) →
      w.Within t → ps.foldlM (visitParent recur loc n) w = .ok v →
      Wf store v ∧ v.Within w ∧ ∀ q ∈ ps, v.prefetches q.id = none
  | [], w, v, _, hw, h => by cases h; exact ⟨ht.of_within hw, .refl _, fun _ h => nomatch h⟩
  | pptr :: ps, w, v, hps, hw, h => by
    rw [List.foldlM_cons] at h
    obtain ⟨w₁, hv, h⟩ := Except.bind_eq_ok h
    have h₁ : w₁.Within w ∧ w₁.prefetches pptr.id = none := by
      unfold visitParent at hv
      split at hv
      · cases hv
        exact ⟨Within.dropParent _ _ _ _, ‹_›⟩
      · rename_i parent hp
        exact (hrec w pptr _ w₁ (ht.of_within hw) hp
          (hE.succ fuel loc t w pptr parent ht hen (hps _ (.head _)) hw hp) hv).2
    obtain ⟨hv', hwv, hq⟩ := visitParents_removes hE hrec ht hen n ps (fun q hq => hps q (.tail _ hq))
      (h₁.1.trans hw) h
    refine ⟨hv', hwv.trans h₁.1, fun q hq' => ?_⟩
    rcases List.mem_cons.1 hq' with rfl | hq'
    · exact hwv.prefetches_none h₁.2
    · exact hq q hq'

/-- The loop of `applyToParentsRecursive` at the record `loc` of `t` over buckets `bs` of
    its map removes the ID of every pointer in them. -/
theorem visitBuckets_removes (hE : FuelSpec store E Enough) (hrec : RecurRemoves store Enough fuel recur)
    {t : BlockPrefetcher A} (ht : Wf store t) (hen : Enough (fuel + 1) loc t) :
    ∀ (bs : Parents) {w v : BlockPrefetcher A}, (∀ b ∈ bs, b ∈ (t.heap loc).parents) → w.Within t →
      bs.foldlM (fun s b => do
        let s ← b.2.foldlM (visitParent recur loc b.1) s
        pure (dropIfEmpty loc b.1 s)) w = .ok v →
      Wf store v ∧ v.Within w ∧ ∀ q ∈ allParents bs, v.prefetches q.id = none
  | [], w, v, _, hw, h => by
    cases h; exact ⟨ht.of_within hw, .refl _, fun _ h => by simp [allParents] at h⟩
  | b :: bs, w, v, hbs, hw, h => by
    rw [List.foldlM_cons] at h
    obtain ⟨w₂, hv₂, h⟩ := Except.bind_eq_ok h
    obtain ⟨w₁, hv, hd⟩ := Except.bind_eq_ok hv₂
    cases hd
    obtain ⟨-, hww₁, hq₁⟩ := visitParents_removes hE hrec ht hen b.1 b.2
      (fun q hq => List.mem_flatMap.2 ⟨b, hbs b (.head _), hq⟩) hw hv
    have hd := (Within.dropIfEmpty w₁ loc b.1).trans hww₁
    obtain ⟨hv', hwv, hq⟩ := visitBuckets_removes hE hrec ht hen bs (fun b' hb => hbs b' (.tail _ hb))
      (hd.trans hw) h
    refine ⟨hv', hwv.trans hd, fun q hq' => ?_⟩
    rw [show allParents (b :: bs) = b.2 ++ allParents bs from rfl] at hq'
    rcases List.mem_append.1 hq' with hq' | hq'
    · exact (hwv.trans (Within.dropIfEmpty w₁ loc b.1)).prefetches_none (hq₁ q hq')
    · exact hq q hq'

/-- When the loop of a walk at `loc` ends, every parent pointer the record had names an ID
    without a record. -/
theorem visitAllParents_removes (hE : FuelSpec store E Enough) (hrec : RecurRemoves store Enough fuel recur)
    {t v : BlockPrefetcher A} (ht : Wf store t) (hen : Enough (fuel + 1) loc t)
    (h : visitAllParents recur loc t = .ok v) :
    Wf store v ∧ v.Within t ∧ ∀ q ∈ allParents (t.heap loc).parents, v.prefetches q.id = none :=
  visitBuckets_removes hE hrec ht hen _ (fun _ hb => hb) (.refl t) h

/-! ### A record whose parents are all gone -/

theorem dropBucket_of_not_mem {n : Nat} {ps : Parents} (h : n ∉ ps.map Prod.fst) : dropBucket n ps = ps :=
  List.filter_eq_self.2 fun b hb => decide_eq_true fun e : b.1 = n => h (e ▸ List.mem_map_of_mem Prod.fst hb)

theorem dropParent_of_not_mem {n : Nat} (q : BlockPointer) {ps : Parents} (h : n ∉ ps.map Prod.fst) :
    dropParent n q ps = ps :=
  (List.map_congr_left fun b hb => if_neg fun e : b.1 = n => h (e ▸ List.mem_map_of_mem Prod.fst hb)).trans
    (List.map_id _)

theorem foldl_erase_self (l : List BlockPointer) : l.foldl List.erase l = [] := by
  induction l with
  | nil => rfl
  | cons q l ih => simpa using ih

/-- The loop over the pointers `qs` of the bucket `n` heading a record's map, no other
    bucket being of `n`, when none of them names a stored record: each is dropped. -/
theorem foldlM_visitParent_stale (recur : WalkFn A BlockPointer) (t : BlockPrefetcher A) (loc n : Nat)
    {rest : Parents} (hn : n ∉ rest.map Prod.fst) :
    ∀ (qs l : List BlockPointer), (∀ q ∈ qs, t.prefetches q.id = none) →
      qs.foldlM (visitParent recur loc n) (t.modify loc fun pp => { pp with parents := (n, l) :: rest }) =
        .ok (t.modify loc fun pp => { pp with parents := (n, qs.foldl List.erase l) :: rest })
  | [], _, _ => rfl
  | q :: qs, l, h => by
    have hd : dropParent n q ((n, l) :: rest) = (n, l.erase q) :: rest := by
      simp only [dropParent, List.map_cons, if_pos rfl]
      exact congrArg _ (dropParent_of_not_mem q hn)
    have e : visitParent recur loc n (t.modify loc fun pp => { pp with parents := (n, l) :: rest }) q =
        .ok (t.modify loc fun pp => { pp with parents := (n, l.erase q) :: rest }) := by
      simp only [visitParent, modify_prefetches, h q (.head _), modify_modify, modify_heap, if_true, hd]
      rfl
    rw [List.foldlM_cons, e]
    exact foldlM_visitParent_stale recur t loc n hn qs _ fun q' hq => h q' (.tail _ hq)

/-- The buckets `ps` of a Go map, none of whose pointers names a stored record: the loop
    drops every pointer, then every bucket. -/
theorem visitBuckets_stale (recur : WalkFn A BlockPointer) (t : BlockPrefetcher A) (loc : Nat) :
    ∀ ps : Parents, GoMap ps → (∀ q ∈ allParents ps, t.prefetches q.id = none) →
      ps.foldlM (fun s b => do
        let s ← b.2.foldlM (visitParent recur loc b.1) s
        pure (dropIfEmpty loc b.1 s)) (t.modify loc fun pp => { pp with parents := ps }) =
        .ok (t.modify loc fun pp => { pp with parents := [] })
  | [], _, _ => rfl
  | (n, qs) :: rest, hg, h => by
    obtain ⟨hn, hk⟩ := List.nodup_cons.1 hg.1
    have hdb : dropBucket n ((n, []) :: rest) = rest := by
      rw [dropBucket, List.filter_cons_of_neg (by simp)]
      exact dropBucket_of_not_mem hn
    have e : dropIfEmpty loc n (t.modify loc fun pp => { pp with parents := (n, qs.foldl List.erase qs) :: rest }) =
        t.modify loc fun pp => { pp with parents := rest } := by
      simp [dropIfEmpty, foldl_erase_self, bucketOf, modify_modify, hdb]
    rw [List.foldlM_cons]
    simp only [foldlM_visitParent_stale recur t loc n hn qs qs fun q hq => h q (List.mem_append_left _ hq)]
    rw [show (Except.ok _ >>= fun s => pure (dropIfEmpty loc n s)) = Except.ok _ from rfl, e]
    exact visitBuckets_stale recur t loc rest ⟨hk, fun b hb => hg.2 b (.tail _ hb)⟩
      fun q hq => h q (List.mem_append_right _ hq)

/-- The loop of a walk at a record whose map is a Go map and none of whose parent pointers
    names a stored record leaves the map empty and changes nothing else. -/
theorem visitAllParents_stale {t : BlockPrefetcher A} (hg : GoMap (t.heap loc).parents)
    (h : ∀ q ∈ allParents (t.heap loc).parents, t.prefetches q.id = none) :
    visitAllParents recur loc t = .ok (t.modify loc fun pp => { pp with parents := [] }) := by
  have := visitBuckets_stale recur t loc _ hg h
  rwa [modify_parents_self] at this

end Loop

/-! ## The loop relation of a removing walk -/

section Removing

variable (ent top : Nat → Option (RescheduledPrefetch A) → PrefetchRequest A →
  Option (RescheduledPrefetch A) → Prop)

/-- The records of `t` that `u` has removed are closed upwards along the parent edges of `t`. -/
def UpClosed (t u : BlockPrefetcher A) : Prop :=
  ∀ a b, t.prefetches (t.heap a).req.ptr.id = some a → ParentEdge t a b → Removed t u a →
    Removed t u b

theorem UpClosed.chain {t u : BlockPrefetcher A} (hu : UpClosed t u) (ht : Wf store t) {r l : Nat}
    (hp : ∃ i, t.prefetches i = some r) (h : Relation.ReflTransGen (ParentEdge t) r l)
    (hr : Removed t u r) : Removed t u l := by
  induction h with
  | refl => exact hr
  | tail hrb hbc ih => exact hu _ _ (ParentEdge.reflTransGen_stored ht hp hrb) hbc ih

/-- Every record of `t` but the one at `loc` whose heap entry `u` changed is removed. -/
def Untouched (t : BlockPrefetcher A) (loc : Nat) (u : BlockPrefetcher A) : Prop :=
  ∀ a, a ≠ loc → u.heap a ≠ t.heap a → Removed t u a

/-- Every `rescheduled` entry `u` changed is at the ID of a record on or above `loc` in `t`,
    which has no record in `u`, and is what `ent` allows for that record's request and the
    entry `t` had. -/
def EntriesFrom (t : BlockPrefetcher A) (loc : Nat) (u : BlockPrefetcher A) : Prop :=
  ∀ i, u.rescheduled i ≠ t.rescheduled i → ∃ l, Relation.ReflTransGen (ParentEdge t) loc l ∧
    (t.heap l).req.ptr.id = i ∧ u.prefetches i = none ∧
    ent i (t.rescheduled i) (t.heap l).req (u.rescheduled i)

/-- Every record on or above `loc` that `t` stores with no parent edge, once `u` has removed
    it, has at its ID what `top` allows for its request and the entry `t` had. -/
def TopsFrom (t : BlockPrefetcher A) (loc : Nat) (u : BlockPrefetcher A) : Prop :=
  ∀ l, Relation.ReflTransGen (ParentEdge t) loc l → t.prefetches (t.heap l).req.ptr.id = some l →
    (∀ p, ¬ParentEdge t l p) → Removed t u l →
    top (t.heap l).req.ptr.id (t.rescheduled (t.heap l).req.ptr.id) (t.heap l).req
      (u.rescheduled (t.heap l).req.ptr.id)

/-- What the loop of a removing walk at `loc` of `s` keeps. -/
structure RemovalLoop (store : Nat → Block) (s : BlockPrefetcher A) (loc : Nat)
    (w : BlockPrefetcher A) : Prop where
  frame : FrameRel store s loc w
  upClosed : UpClosed s w
  untouched : Untouched s loc w
  entries : EntriesFrom ent s loc w
  tops : TopsFrom top s loc w
  self : ∀ id, s.prefetches id = some loc → w.prefetches id = some loc
  req : (w.heap loc).req = (s.heap loc).req

/-- What a removing walk from `loc` of `t` ends in: every record on or above `loc` removed,
    every other change at a removed record, and the entry `top` allows at each record that
    had no parent edge. -/
structure RemovalWalk (store : Nat → Block) (t : BlockPrefetcher A) (loc : Nat)
    (u : BlockPrefetcher A) : Prop where
  frame : FrameRel store t loc u
  covers : ∀ l, Relation.ReflTransGen (ParentEdge t) loc l → u.prefetches (t.heap l).req.ptr.id = none
  removed : ∀ a, u.heap a ≠ t.heap a → Removed t u a
  entries : EntriesFrom ent t loc u
  self : ∀ k, t.prefetches k = some loc → ent k (t.rescheduled k) (t.heap loc).req (u.rescheduled k)
  tops : ∀ l, Relation.ReflTransGen (ParentEdge t) loc l → (∀ p, ¬ParentEdge t l p) →
    top (t.heap l).req.ptr.id (t.rescheduled (t.heap l).req.ptr.id) (t.heap l).req
      (u.rescheduled (t.heap l).req.ptr.id)

theorem LoopRel.removal (hst : StoreAcyclic store) :
    LoopRel store (RemovalLoop ent top store) (RemovalWalk ent top store) where
  wf h := h.frame.1
  refl _ hs := ⟨LoopRel.frame.refl _ hs, fun _ _ ha _ hr => absurd ha hr,
    fun _ _ h => absurd rfl h, fun _ h => absurd rfl h, fun _ _ hl _ hr => absurd hl hr, fun _ h => h, rfl⟩
  prune g h hg hgo := ⟨LoopRel.frame.prune g h.frame hg hgo, h.upClosed,
    fun a ha hne => h.untouched a ha (by simpa [ha] using hne), h.entries, h.tops, h.self, by simp [h.req]⟩
  parent {s loc t p u} hs h he hp h' := by
    have hts := h.frame.1.2
    have habove : ∀ l, Relation.ReflTransGen (ParentEdge t) p l → Relation.TransGen (ParentEdge s) loc l :=
      fun l hl => .head' he (ParentEdge.reflTransGen_of_within hts hl)
    have hstored : ∀ l, Relation.ReflTransGen (ParentEdge t) p l →
        t.prefetches (t.heap l).req.ptr.id = some l :=
      fun l hl => ParentEdge.reflTransGen_stored h.frame.1.1 hp hl
    have hne : ∀ l, Relation.ReflTransGen (ParentEdge t) p l → l ≠ loc :=
      fun l hl e => hs.parentEdge_acyclic hst loc (e ▸ habove l hl)
    have hheap : ∀ l, Relation.ReflTransGen (ParentEdge t) p l → t.heap l = s.heap l :=
      fun l hl => by_contra fun hn => h.untouched l (hne l hl) hn (hts.ptr l ▸ hstored l hl)
    have hlift : ∀ a, t.prefetches (s.heap a).req.ptr.id = some a →
        u.prefetches (s.heap a).req.ptr.id ≠ some a → Relation.ReflTransGen (ParentEdge t) p a := by
      intro a hta hua
      by_contra hn
      refine hua ((h'.frame.2.ids _ fun l hl heq => hn ?_).1 ▸ hta)
      have := hstored l hl
      rw [heq, hta] at this
      exact Option.some.inj this ▸ hl
    -- an ID without a record in `t` keeps its entry through the walk from `p`, and one with a
    -- record in `t` has kept its entry through the loop so far
    have hkeep : ∀ i, t.prefetches i = none → u.rescheduled i = t.rescheduled i := fun i hi =>
      by_contra fun hut => by
        obtain ⟨l', hl', hid', -⟩ := h'.entries i hut
        have := hstored l' hl'
        rw [hid', hi] at this
        cases this
    have hsame : ∀ i l, t.prefetches i = some l → t.rescheduled i = s.rescheduled i := fun i l hi =>
      by_contra fun hne => by
        obtain ⟨-, -, -, hnone, -⟩ := h.entries i hne
        rw [hnone] at hi
        cases hi
    refine ⟨LoopRel.frame.parent hs h.frame he hp h'.frame, fun a b ha hab hr => ?_,
      fun a ha hn => ?_, fun i hi => ?_, fun l hl hsl hnp hr => ?_, fun id hid => ?_, ?_⟩
    · by_cases hrt : Removed s t a
      · exact (h.upClosed a b ha hab hrt).mono h'.frame.1.2
      · have hpa := hlift a (not_not.1 hrt) hr
        obtain ⟨q, hq, hqb⟩ := hab
        unfold Removed
        rw [hs.keyed _ _ hqb]
        cases htq : t.prefetches q.id with
        | none => rw [h'.frame.1.2.prefetches_none htq]; simp
        | some b' =>
          obtain rfl : b' = b := Option.some.inj ((hts.prefetches _ _ htq).symm.trans hqb)
          have hpb : Relation.ReflTransGen (ParentEdge t) p b' :=
            hpa.tail ⟨q, hheap a hpa ▸ hq, htq⟩
          have := h'.covers b' hpb
          rw [hts.ptr, hs.keyed _ _ hqb] at this
          rw [this]; simp
    · by_cases hta : t.heap a = s.heap a
      · have := h'.removed a (hta ▸ hn)
        unfold Removed at this ⊢
        rwa [hta] at this
      · exact (h.untouched a ha hta).mono h'.frame.1.2
    · by_cases hti : t.rescheduled i = s.rescheduled i
      · obtain ⟨l, hl, hid, hnone, hent⟩ := h'.entries i (hti ▸ hi)
        refine ⟨l, (habove l hl).to_reflTransGen, hts.ptr l ▸ hid, hnone, ?_⟩
        rw [← hti, ← hheap l hl]
        exact hent
      · obtain ⟨l, hl, hid, hnone, hent⟩ := h.entries i hti
        exact ⟨l, hl, hid, h'.frame.1.2.prefetches_none hnone, hkeep i hnone ▸ hent⟩
    · by_cases hrt : Removed s t l
      · rw [hkeep _ (hrt.eq_none hts hsl)]
        exact h.tops l hl hsl hnp hrt
      · have hpl := hlift l (not_not.1 hrt) hr
        have := h'.tops l hpl fun p' hp' => hnp p' (hp'.of_within hts)
        rwa [hheap l hpl, hsame _ l (not_not.1 hrt)] at this
    · refine (h'.frame.2.ids id fun l hl heq => hne l hl ?_).1 ▸ h.self id hid
      have := hstored l hl
      rw [heq, h.self id hid] at this
      exact (Option.some.inj this).symm
    · rw [h'.frame.2.heap loc fun hl => hne loc hl rfl, h.req]

/-- What the function of a removing walk does at a stored record: it removes the record's
    ID, and leaves there an entry `ent` allows for the record's request and the old entry,
    one `top` allows if the record's parent map is empty. -/
def RemovesSelf (store : Nat → Block) (f : WalkFn A Nat) : Prop :=
  ∀ k loc t t', Wf store t → t.prefetches k = some loc → f k loc t = .ok t' →
    t'.prefetches k = none ∧ ent k (t.rescheduled k) (t.heap loc).req (t'.rescheduled k) ∧
      ((t.heap loc).parents = [] → top k (t.rescheduled k) (t.heap loc).req (t'.rescheduled k))

variable {E : Abort → Prop} {Enough : Nat → Nat → BlockPrefetcher A → Prop}

/-- A depth argument that also says where the walk is: a walk calls itself only at a parent
    still stored. -/
theorem FuelSpec.stored (hE : FuelSpec store E Enough) :
    FuelSpec store E fun n loc (t : BlockPrefetcher A) => Enough n loc t ∧ ∃ i, t.prefetches i = some loc :=
  ⟨fun loc s h => hE.zero loc s h.1,
    fun n loc s s' q p hs hen hq hw hp => ⟨hE.succ n loc s s' q p hs hen.1 hq hw hp, q.id, hp⟩⟩

/-- A walk whose function keeps `Wf`, writes locally and removes the record it is applied
    to removes every record on or above the one it starts from. With a depth argument for
    failures `E` and a function that fails at a stored record only with `E`, it fails only
    with `E`. -/
theorem applyToParentsRecursive_removal (hst : StoreAcyclic store) {f : WalkFn A Nat}
    (hf : f.Keeps store (fun _ => True) id) (hl : f.IsLocal id) (hr : RemovesSelf ent top store f)
    (hE : FuelSpec store E Enough)
    (hok : ∀ k loc t, Wf store t → t.prefetches k = some loc → (f k loc t).Holds E fun _ => True) :
    ∀ fuel k loc (t : BlockPrefetcher A), Wf store t → t.prefetches k = some loc → Enough fuel loc t →
      (applyToParentsRecursive f fuel k loc t).Holds E (RemovalWalk ent top store t loc)
  | 0, _, loc, t, _, _, hen => hE.zero loc t hen
  | fuel + 1, k, loc, t, ht, hk, hen => by
    have IH := applyToParentsRecursive_removal hst hf hl hr hE hok fuel
    have hloop := visitAllParents_holds (LoopRel.removal ent top hst) hE.stored ht ⟨hen, k, hk⟩
      fun w pptr parent hw hkw ⟨hen', i, hi⟩ => IH _ _ w hw (hkw ▸ hw.keyed _ _ hi ▸ hi) hen'
    simp only [applyToParentsRecursive]
    cases hv : visitAllParents (fun pptr parent s => applyToParentsRecursive f fuel pptr.id parent s) loc t with
    | error e => rw [hv] at hloop; exact hloop
    | ok v =>
    rw [hv] at hloop
    have hcov := (visitAllParents_removes hE (fun w pptr parent w' hw hp hen' hx =>
      have hw' := (IH _ _ w hw hp hen').of_ok hx
      ⟨hw'.frame.1.1, hw'.frame.1.2, hw.keyed _ _ hp ▸ hw'.covers parent .refl⟩) ht hen hv).2.2
    have hkl := ht.keyed _ _ hk
    have hvk : v.prefetches k = some loc := hloop.self k hk
    have hfk := hok k loc v hloop.frame.1.1 hvk
    show (f k loc v).Holds E _
    cases h : f k loc v with
    | error e => rw [h] at hfk; exact hfk
    | ok u =>
    have huv := ((hf k loc v hloop.frame.1.1 (by rw [hloop.frame.1.2.ptr, hkl]; rfl)).of_ok h).2
    have hloc := (hl k loc v).of_ok h
    obtain ⟨hku, hent, htop⟩ := hr k loc v u hloop.frame.1.1 hvk h
    have hvr : v.rescheduled k = t.rescheduled k := by
      by_contra hne
      obtain ⟨-, -, -, hnone, -⟩ := hloop.entries k hne
      rw [hnone] at hvk
      cases hvk
    rw [hvr, hloop.req] at hent htop
    -- the removed records: this one, and each record above one of its parents
    have hrem : ∀ l, Relation.ReflTransGen (ParentEdge t) loc l → Removed t u l := by
      intro l hl'
      rcases Relation.ReflTransGen.cases_head hl' with rfl | ⟨r, ⟨q, hq, hqr⟩, hrl⟩
      · unfold Removed; rw [hkl, hku]; simp
      · refine (hloop.upClosed.chain ht ⟨q.id, hqr⟩ hrl ?_).mono huv
        unfold Removed; rw [ht.keyed _ _ hqr, hcov q hq]; simp
    refine ⟨((hf.appliesHolds_frame hl) t k loc v hloop.frame
      (by rw [hloop.frame.1.2.ptr, hkl]; rfl)).of_ok h, fun l hl' => ?_, fun a ha => ?_, fun i hi => ?_,
      fun k' hk' => (ht.keyed _ _ hk').symm.trans hkl ▸ hent, fun l hl' hnp => ?_⟩
    · exact (hrem l hl').eq_none (huv.trans hloop.frame.1.2) (ParentEdge.reflTransGen_stored ht ⟨k, hk⟩ hl')
    · by_cases hal : a = loc
      · subst hal; unfold Removed; rw [hkl, hku]; simp
      · by_cases hva : v.heap a = t.heap a
        · exact absurd ((hloc.heap a hal).trans hva) ha
        · exact (hloop.untouched a hal hva).mono huv
    · by_cases hik : i = k
      · subst hik
        exact ⟨loc, .refl, hkl, hku, hent⟩
      · have hvi : u.rescheduled i = v.rescheduled i := hloc.rescheduled i hik
        obtain ⟨l, hl', hid, hnone, hent'⟩ := hloop.entries i (hvi ▸ hi)
        exact ⟨l, hl', hid, huv.prefetches_none hnone, hvi ▸ hent'⟩
    · by_cases hll : l = loc
      · -- a record with no live parent: its loop dropped every pointer
        subst hll
        rw [hkl]
        refine htop ?_
        have hstale : ∀ q ∈ allParents (t.heap l).parents, t.prefetches q.id = none := fun q hq => by
          cases hq' : t.prefetches q.id with
          | none => rfl
          | some p => exact absurd ⟨q, hq, hq'⟩ (hnp p)
        rw [visitAllParents_stale (ht.goMap l) hstale] at hv
        cases hv
        simp
      · have hsl := ParentEdge.reflTransGen_stored ht ⟨k, hk⟩ hl'
        have hik : (t.heap l).req.ptr.id ≠ k := fun e => hll (Option.some.inj ((e ▸ hsl).symm.trans hk))
        rw [hloc.rescheduled _ hik]
        refine hloop.tops l hl' hsl hnp fun hvl => ?_
        exact hrem l hl' ((hloc.prefetches _ hik).trans hvl)
end Removing

end KbfsPrefetcher
