import KbfsPrefetcher.Cancel

/-
  The schedule of the two parent walks, `applyToParentsRecursive` and
  `applyToPtrParentsRecursive`, when the function they apply changes nothing but the count
  of the record it is given, as `decrementPrefetch` and the closure adding `numBlocks` do.

  Model: a run of a walk is a list of events (`WalkStep`): `f` applied to a record, a parent
  pointer dropped, a bucket dropped if it is empty; `runSteps` runs them. `Schedules w steps
  t t'` says that from every state of `t`'s shape (its `prefetches` and parent maps) the walk
  `w` runs as `steps`, whatever count-only `f` it is given, and that without `f` the events
  leave `t'`. The parent edges a walk follows are `Hop`s; `chainsFrom` lists the chains of
  them from a record in the order a walk ends them, and `Chain` says what one is. Parent maps
  are Go maps of sets (`GoMap`): no ref-nonce has two buckets, no bucket a pointer twice.

  Proved: `walks_schedule`. Take a state whose parent-edge graph is acyclic, and any record.
  Each walk from it runs as one list of events for every count-only `f`. The events apply
  `f` once per chain of parent edges from the record (through records in `prefetches`), at
  the chain's end. Each application comes after those of every chain extending it, so the
  record's own comes last and only once. Apart from `f`, the events drop only pointers to
  IDs without a record, and buckets that are empty. The walk through every bucket follows
  every edge. The walk through one ref-nonce takes, at each record, only the bucket of the
  ref-nonce of the pointer it came through.
-/

namespace KbfsPrefetcher

open BlockPrefetcher

variable {A κ : Type}

/-! ## Events -/

/-- One event of a walk: `f` applied to the record at `loc` with the key `key`, the pointer
    `pptr` dropped from the bucket `refNonce` of that record, or that bucket dropped if it is
    empty. -/
inductive WalkStep (κ : Type) where
  | apply (key : κ) (loc : Nat)
  | dropParent (loc refNonce : Nat) (pptr : BlockPointer)
  | dropIfEmpty (loc refNonce : Nat)
  deriving DecidableEq, Repr

/-- The key and the record of an application. -/
def WalkStep.applied : WalkStep κ → Option (κ × Nat)
  | .apply key loc => some (key, loc)
  | _ => none

/-- One event, as the walk does it. -/
def runStep (f : WalkFn A κ) (s : BlockPrefetcher A) : WalkStep κ → Except Abort (BlockPrefetcher A)
  | .apply key loc => f key loc s
  | .dropParent loc n pptr =>
    pure (s.modify loc fun pp => { pp with parents := dropParent n pptr pp.parents })
  | .dropIfEmpty loc n => pure (dropIfEmpty loc n s)

/-- A list of events in order; the first failure of `f` ends the run. -/
def runSteps (f : WalkFn A κ) (steps : List (WalkStep κ)) (s : BlockPrefetcher A) :
    Except Abort (BlockPrefetcher A) :=
  steps.foldlM (runStep f) s

theorem runSteps_append (f : WalkFn A κ) (a b : List (WalkStep κ)) (s : BlockPrefetcher A) :
    runSteps f (a ++ b) s = runSteps f a s >>= runSteps f b :=
  List.foldlM_append ..

theorem runSteps_singleton (f : WalkFn A κ) (e : WalkStep κ) (s : BlockPrefetcher A) :
    runSteps f [e] s = runStep f s e := by
  simp [runSteps]

/-- `f` changes at most the `subtreeBlockCount` of the record it is applied to, when it does
    not fail. -/
def WalkFn.CountOnly (f : WalkFn A κ) : Prop :=
  ∀ k loc s s', f k loc s = .ok s' →
    ∃ c, s' = s.modify loc fun pp => { pp with subtreeBlockCount := c }

/-- The function that changes nothing: under it a walk only prunes. -/
def WalkFn.skip : WalkFn A κ := fun _ _ s => pure s

theorem decrementPrefetch_countOnly : (decrementPrefetch : WalkFn A Nat).CountOnly := by
  intro k loc s s' h
  simp only [decrementPrefetch] at h
  split at h
  · cases h
  · exact ⟨_, (Except.ok.inj h).symm⟩

theorem addSubtreeBlocks_countOnly (numBlocks : Int) :
    (addSubtreeBlocks numBlocks : WalkFn A Nat).CountOnly :=
  fun _ _ _ _ h => ⟨_, (Except.ok.inj h).symm⟩

/-! ## States of one shape -/

/-- Two states with the same `prefetches` and the same parent maps. -/
def SameShape (u t : BlockPrefetcher A) : Prop :=
  u.prefetches = t.prefetches ∧ ∀ l, (u.heap l).parents = (t.heap l).parents

theorem SameShape.refl (t : BlockPrefetcher A) : SameShape t t := ⟨rfl, fun _ => rfl⟩

theorem SameShape.modify {u t : BlockPrefetcher A} (h : SameShape u t) (loc : Nat)
    {g g' : Prefetch A → Prefetch A} (hg : (g (u.heap loc)).parents = (g' (t.heap loc)).parents) :
    SameShape (u.modify loc g) (t.modify loc g') := by
  refine ⟨h.1, fun l => ?_⟩
  simp only [modify_heap]
  split
  · exact hg
  · exact h.2 l

/-- An event keeps two states of one shape, run with a count-only `f` on the one and with
    `skip` on the other. -/
theorem SameShape.of_runStep {f : WalkFn A κ} (hf : f.CountOnly) {u t u' t' : BlockPrefetcher A}
    (h : SameShape u t) (e : WalkStep κ) (hu : runStep f u e = .ok u')
    (ht : runStep .skip t e = .ok t') : SameShape u' t' := by
  cases e with
  | apply k l =>
    obtain ⟨c, rfl⟩ := hf _ _ _ _ hu
    cases ht
    refine ⟨h.1, fun l' => ?_⟩
    by_cases e : l' = l <;> simp [e, h.2]
  | dropParent l n q =>
    cases hu; cases ht
    exact h.modify l (by simp [h.2 l])
  | dropIfEmpty l n =>
    cases hu; cases ht
    unfold dropIfEmpty
    rw [h.2 l]
    split
    · exact h.modify l (by simp [h.2 l])
    · exact h

theorem SameShape.of_runSteps {f : WalkFn A κ} (hf : f.CountOnly) :
    ∀ (steps : List (WalkStep κ)) {u t u' t' : BlockPrefetcher A}, SameShape u t →
      KbfsPrefetcher.runSteps f steps u = .ok u' → KbfsPrefetcher.runSteps .skip steps t = .ok t' →
      SameShape u' t'
  | [], _, _, _, _, h, hu, ht => by cases hu; cases ht; exact h
  | e :: es, u, t, _, _, h, hu, ht => by
    simp only [KbfsPrefetcher.runSteps, List.foldlM_cons] at hu ht
    obtain ⟨u₁, hu₁, hu⟩ := Except.bind_eq_ok hu
    obtain ⟨t₁, ht₁, ht⟩ := Except.bind_eq_ok ht
    exact SameShape.of_runSteps hf es (h.of_runStep hf e hu₁ ht₁) hu ht

theorem runSteps_skip_prefetches :
    ∀ (steps : List (WalkStep κ)) {t t' : BlockPrefetcher A}, runSteps .skip steps t = .ok t' →
      t'.prefetches = t.prefetches
  | [], _, _, h => by cases h; rfl
  | e :: es, t, _, h => by
    have h₁ : ∀ t₁, runStep .skip t e = .ok t₁ → t₁.prefetches = t.prefetches := by
      intro t₁ h₁
      cases e with
      | apply => cases h₁; rfl
      | dropParent => cases h₁; rfl
      | dropIfEmpty l n => cases h₁; unfold dropIfEmpty; split <;> rfl
    simp only [runSteps, List.foldlM_cons] at h
    obtain ⟨t₁, h', h⟩ := Except.bind_eq_ok h
    exact (runSteps_skip_prefetches es h).trans (h₁ t₁ h')

/-! ## Schedules -/

/-- The events `steps` schedule the walk `w` from `t`: from every state of `t`'s shape and for
    every count-only `f`, `w f` runs as `steps` do; under `skip` they leave `t'`. -/
def Schedules (w : WalkFn A κ → BlockPrefetcher A → Except Abort (BlockPrefetcher A))
    (steps : List (WalkStep κ)) (t t' : BlockPrefetcher A) : Prop :=
  (∀ f : WalkFn A κ, f.CountOnly → ∀ u, SameShape u t → w f u = runSteps f steps u) ∧
    runSteps .skip steps t = .ok t'

namespace Schedules

variable {w w₁ : WalkFn A κ → BlockPrefetcher A → Except Abort (BlockPrefetcher A)}
  {w₂ : WalkFn A κ → BlockPrefetcher A → Except Abort (BlockPrefetcher A)}
  {steps s₁ s₂ : List (WalkStep κ)} {t t' t₁ t₂ : BlockPrefetcher A}

theorem congr (h : Schedules w steps t t')
    {w' : WalkFn A κ → BlockPrefetcher A → Except Abort (BlockPrefetcher A)}
    (hw : ∀ f u, SameShape u t → w' f u = w f u) : Schedules w' steps t t' :=
  ⟨fun f hf u hu => (hw f u hu).trans (h.1 f hf u hu), h.2⟩

theorem pure (t : BlockPrefetcher A) : Schedules (fun _ u => Pure.pure u) ([] : List (WalkStep κ)) t t :=
  ⟨fun _ _ _ _ => rfl, rfl⟩

theorem single (e : WalkStep κ) (ht : runStep .skip t e = .ok t') :
    Schedules (fun f u => runStep f u e) [e] t t' :=
  ⟨fun f _ u _ => (runSteps_singleton f e u).symm, (runSteps_singleton _ e t).trans ht⟩

/-- Two schedules in sequence. -/
theorem bind (h₁ : Schedules w₁ s₁ t t₁) (h₂ : Schedules w₂ s₂ t₁ t₂) :
    Schedules (fun f u => w₁ f u >>= w₂ f) (s₁ ++ s₂) t t₂ := by
  refine ⟨fun f hf u hu => ?_, by rw [runSteps_append, h₁.2]; exact h₂.2⟩
  show w₁ f u >>= w₂ f = _
  rw [h₁.1 f hf u hu, runSteps_append]
  cases hr : runSteps f s₁ u with
  | error _ => rfl
  | ok u₁ => exact h₂.1 f hf u₁ (hu.of_runSteps hf s₁ hr h₁.2)

end Schedules

/-! ## Chains of parent edges -/

/-- One parent edge a walk follows: the pointer `pptr` of the bucket `refNonce` of a record,
    whose ID has the record at `loc`. -/
structure Hop where
  refNonce : Nat
  pptr : BlockPointer
  loc : Nat
  deriving DecidableEq, Repr

/-- The parent edges through the pointers `qs` of the bucket `n`, in order, leaving out the
    pointers whose ID has no record. -/
def liveHops (t : BlockPrefetcher A) (n : Nat) (qs : List BlockPointer) : List Hop :=
  qs.filterMap fun q => (t.prefetches q.id).map (Hop.mk n q)

/-- The parent edges through the parent map `ps`, in the order a walk takes them: through every
    bucket (`none`), or through the bucket of one ref-nonce. -/
def hopsIn (t : BlockPrefetcher A) : Option Nat → Parents → List Hop
  | none, ps => ps.flatMap fun b => liveHops t b.1 b.2
  | some n, ps => liveHops t n (bucketOf n ps)

/-- The parent edges a walk takes from the record at `l`. -/
def hopsOf (t : BlockPrefetcher A) (sel : Option Nat) (l : Nat) : List Hop :=
  hopsIn t sel (t.heap l).parents

theorem mem_liveHops {t : BlockPrefetcher A} {n : Nat} {qs : List BlockPointer} {h : Hop} :
    h ∈ liveHops t n qs ↔ h.refNonce = n ∧ h.pptr ∈ qs ∧ t.prefetches h.pptr.id = some h.loc := by
  obtain ⟨m, q, p⟩ := h
  simp only [liveHops, List.mem_filterMap, Option.map_eq_some']
  constructor
  · rintro ⟨q', hq', p', hp', ⟨⟩⟩
    exact ⟨rfl, hq', hp'⟩
  · rintro ⟨rfl, hq, hp⟩
    exact ⟨q, hq, p, hp, rfl⟩

theorem parentEdge_iff_hops {t : BlockPrefetcher A} {l p : Nat} :
    ParentEdge t l p ↔ ∃ h ∈ hopsOf t none l, h.loc = p := by
  simp only [ParentEdge, hopsOf, hopsIn, allParents, List.mem_flatMap, mem_liveHops]
  constructor
  · rintro ⟨q, ⟨b, hb, hq⟩, hp⟩
    exact ⟨⟨b.1, q, p⟩, ⟨b, hb, rfl, hq, hp⟩, rfl⟩
  · rintro ⟨h, ⟨b, hb, -, hq, hp⟩, rfl⟩
    exact ⟨h.pptr, ⟨b, hb, hq⟩, hp⟩

theorem parentEdge_of_hop {t : BlockPrefetcher A} {sel : Option Nat} {l : Nat} {h : Hop}
    (hh : h ∈ hopsOf t sel l) : ParentEdge t l h.loc := by
  cases sel with
  | none => exact parentEdge_iff_hops.2 ⟨h, hh, rfl⟩
  | some n =>
    obtain ⟨-, hq, hp⟩ := mem_liveHops.1 hh
    exact ⟨h.pptr, bucketOf_subset _ _ hq, hp⟩

theorem DepthBelow.parent {t : BlockPrefetcher A} {n l p : Nat} (hd : DepthBelow (n + 1) l t)
    (he : ParentEdge t l p) : DepthBelow n p t :=
  fun path hp => Nat.succ_lt_succ_iff.1 (hd (p :: path) (.cons he hp))

/-- A chain of parent edges from the record at `l`: `sel` says which buckets it may take at `l`,
    and `next q` which at the record reached through the pointer `q`. -/
inductive Chain (t : BlockPrefetcher A) (next : BlockPointer → Option Nat) :
    Option Nat → Nat → List Hop → Prop
  | nil (sel : Option Nat) (l : Nat) : Chain t next sel l []
  | cons {sel : Option Nat} {l : Nat} {h : Hop} {c : List Hop} :
    h ∈ hopsOf t sel l → Chain t next (next h.pptr) h.loc c → Chain t next sel l (h :: c)

/-- The record a chain from `l` ends at. -/
def chainEnd (l : Nat) (c : List Hop) : Nat := (c.getLast?.map Hop.loc).getD l

/-- The key a walk gives `f` at the end of a chain: its own `k` for the empty chain, else that
    of the last pointer. -/
def chainKey (key : BlockPointer → κ) (k : κ) (c : List Hop) : κ :=
  (c.getLast?.map fun h => key h.pptr).getD k

@[simp] theorem chainEnd_cons (l : Nat) (h : Hop) (c : List Hop) :
    chainEnd l (h :: c) = chainEnd h.loc c := by
  cases c <;> simp [chainEnd, List.getLast?_cons]

@[simp] theorem chainKey_cons (key : BlockPointer → κ) (k : κ) (h : Hop) (c : List Hop) :
    chainKey key k (h :: c) = chainKey key (key h.pptr) c := by
  cases c <;> simp [chainKey, List.getLast?_cons]

/-- A nonempty chain is a path of parent edges to its end. -/
theorem Chain.transGen {t : BlockPrefetcher A} {next : BlockPointer → Option Nat}
    {sel : Option Nat} {l : Nat} {c : List Hop} (h : Chain t next sel l c) (hc : c ≠ []) :
    Relation.TransGen (ParentEdge t) l (chainEnd l c) := by
  induction h with
  | nil => exact absurd rfl hc
  | @cons _ l h c hh _ ih =>
    rw [chainEnd_cons]
    rcases c with _ | ⟨h', c⟩
    · exact .single (parentEdge_of_hop hh)
    · exact .head (parentEdge_of_hop hh) (ih (List.cons_ne_nil h' c))

/-- Every chain from `l` shorter than `fuel`, in the order a walk ends them: for each edge in
    turn the chains through it, then the empty chain. -/
def chainsFrom (t : BlockPrefetcher A) (next : BlockPointer → Option Nat) :
    Nat → Option Nat → Nat → List (List Hop)
  | 0, _, _ => []
  | fuel + 1, sel, l =>
    ((hopsOf t sel l).flatMap fun h => (chainsFrom t next fuel (next h.pptr) h.loc).map (h :: ·)) ++
      [[]]

theorem mem_chainsFrom {t : BlockPrefetcher A} {next : BlockPointer → Option Nat} :
    ∀ {fuel : Nat} {sel : Option Nat} {l : Nat} {c : List Hop}, DepthBelow fuel l t →
      (c ∈ chainsFrom t next fuel sel l ↔ Chain t next sel l c)
  | 0, _, _, _, hd => absurd (hd [] .nil) (Nat.not_lt_zero 0)
  | fuel + 1, sel, l, c, hd => by
    simp only [chainsFrom, List.mem_append, List.mem_flatMap, List.mem_map, List.mem_singleton]
    constructor
    · rintro (⟨h, hh, c', hc', rfl⟩ | rfl)
      · exact .cons hh ((mem_chainsFrom (hd.parent (parentEdge_of_hop hh))).1 hc')
      · exact .nil sel l
    · intro hc
      cases hc with
      | nil => exact .inr rfl
      | cons hh hc' =>
        exact .inl ⟨_, hh, _, (mem_chainsFrom (hd.parent (parentEdge_of_hop hh))).2 hc', rfl⟩

/-- With no edge taken twice from a record, `chainsFrom` ends every chain after each chain
    that extends it. -/
theorem chainsFrom_postorder {t : BlockPrefetcher A} {next : BlockPointer → Option Nat}
    (hnd : ∀ sel l, (hopsOf t sel l).Nodup) :
    ∀ fuel sel l, (chainsFrom t next fuel sel l).Pairwise fun c d => ¬c <+: d
  | 0, _, _ => .nil
  | fuel + 1, sel, l => by
    refine List.pairwise_append.2 ⟨List.pairwise_flatMap.2 ⟨fun h _ => ?_, ?_⟩,
      List.pairwise_singleton _ _, ?_⟩
    · exact List.pairwise_map.2 ((chainsFrom_postorder hnd fuel _ _).imp
        fun hcd hp => hcd ((List.prefix_cons_inj h).1 hp))
    · exact (hnd sel l).imp fun hne _ hc _ hd hp => by
        obtain ⟨_, -, rfl⟩ := List.mem_map.1 hc
        obtain ⟨_, -, rfl⟩ := List.mem_map.1 hd
        exact hne (List.cons_prefix_cons.1 hp).1
    · intro c hc d hd hp
      obtain ⟨_, -, _, -, rfl⟩ := by simpa using hc
      rw [List.mem_singleton.1 hd, List.prefix_nil] at hp
      cases hp

theorem chainsFrom_congr {t t' : BlockPrefetcher A} (h : ∀ sel l, hopsOf t' sel l = hopsOf t sel l)
    (next : BlockPointer → Option Nat) :
    ∀ fuel sel l, chainsFrom t' next fuel sel l = chainsFrom t next fuel sel l
  | 0, _, _ => rfl
  | fuel + 1, sel, l => by simp only [chainsFrom, h, chainsFrom_congr h next fuel]

/-! ## Go maps and pruning -/

theorem bucketOf_nodup {ps : Parents} (h : ∀ b ∈ ps, b.2.Nodup) (n : Nat) : (bucketOf n ps).Nodup := by
  induction ps with
  | nil => exact .nil
  | cons b ps ih =>
    unfold bucketOf
    split
    · exact h _ (.head _)
    · exact ih fun b hb => h b (.tail _ hb)

theorem bucketOf_of_mem {ps : Parents} (hk : (ps.map Prod.fst).Nodup) {b : Nat × List BlockPointer}
    (hb : b ∈ ps) : bucketOf b.1 ps = b.2 := by
  induction ps with
  | nil => cases hb
  | cons b' ps ih =>
    obtain ⟨m, l⟩ := b'
    rw [List.map_cons, List.nodup_cons] at hk
    unfold bucketOf
    rcases List.mem_cons.1 hb with rfl | hb
    · simp
    · rw [if_neg fun e => hk.1 (List.mem_map.2 ⟨b, hb, e.symm⟩)]
      exact ih hk.2 hb

theorem liveHops_nodup (t : BlockPrefetcher A) (n : Nat) {qs : List BlockPointer} (h : qs.Nodup) :
    (liveHops t n qs).Nodup :=
  h.filterMap fun q q' _ hq hq' => by
    obtain ⟨_, -, rfl⟩ := Option.map_eq_some'.1 hq
    obtain ⟨_, -, e⟩ := Option.map_eq_some'.1 hq'
    exact (congrArg Hop.pptr e).symm

theorem hopsIn_nodup (t : BlockPrefetcher A) {ps : Parents} (hg : GoMap ps) :
    ∀ sel, (hopsIn t sel ps).Nodup
  | none => List.nodup_flatMap.2 ⟨fun b hb => liveHops_nodup t _ (hg.2 b hb),
      (List.pairwise_map.1 hg.1).imp fun hne => by
        intro _ h₁ h₂
        exact hne ((mem_liveHops.1 h₁).1.symm.trans (mem_liveHops.1 h₂).1)⟩
  | some n => liveHops_nodup t n (bucketOf_nodup hg.2 n)

theorem liveHops_erase {t : BlockPrefetcher A} {q : BlockPointer} (hq : t.prefetches q.id = none)
    (n : Nat) : ∀ qs : List BlockPointer, liveHops t n (qs.erase q) = liveHops t n qs
  | [] => rfl
  | a :: qs => by
    have ih := liveHops_erase hq n qs
    rw [List.erase_cons]
    split
    · rename_i e
      rw [beq_iff_eq.1 e]
      simp [liveHops, hq]
    · simp only [liveHops] at ih ⊢
      rw [List.filterMap_cons, List.filterMap_cons, ih]

/-- Dropping a pointer whose ID has no record takes no edge away. -/
theorem hopsIn_dropParent {t : BlockPrefetcher A} {q : BlockPointer} (hq : t.prefetches q.id = none)
    (n : Nat) (ps : Parents) : ∀ sel, hopsIn t sel (dropParent n q ps) = hopsIn t sel ps
  | none => by
    simp only [hopsIn, dropParent, List.flatMap_map]
    congr 1
    funext b
    split
    · exact liveHops_erase hq _ _
    · rfl
  | some m => by
    simp only [hopsIn, bucketOf_dropParent]
    split
    · exact liveHops_erase hq _ _
    · rfl

/-- Dropping the bucket of `n` when it is empty takes no edge away. -/
theorem hopsIn_dropBucket (t : BlockPrefetcher A) {n : Nat} {ps : Parents} (hk : (ps.map Prod.fst).Nodup)
    (he : bucketOf n ps = []) : ∀ sel, hopsIn t sel (dropBucket n ps) = hopsIn t sel ps
  | none => by
    have hb : ∀ b ∈ ps, b.1 = n → b.2 = [] := fun b hb e => by
      rw [← bucketOf_of_mem hk hb, e, he]
    clear hk he
    induction ps with
    | nil => rfl
    | cons b ps ih =>
      have ih' := ih fun b' hb' => hb b' (.tail _ hb')
      simp only [hopsIn, dropBucket, List.filter_cons, List.flatMap_cons] at ih' ⊢
      split
      · rw [List.flatMap_cons, ih']
      · rename_i e
        rw [hb b (.head _) (by simpa using e), ih']
        rfl
  | some m => by
    simp only [hopsIn, bucketOf_dropBucket]
    split
    · subst m
      rw [he]
    · rfl

/-- `t'` is `t` with pointers to IDs without a record or empty buckets dropped: the same
    `prefetches`, the same edges out of every record in the same order, and Go maps. -/
structure Pruned (t' t : BlockPrefetcher A) : Prop where
  prefetches : t'.prefetches = t.prefetches
  hops : ∀ sel l, hopsOf t' sel l = hopsOf t sel l
  goMap : ∀ l, GoMap (t'.heap l).parents

namespace Pruned

variable {t t₁ t₂ : BlockPrefetcher A}

theorem refl (hg : ∀ l, GoMap (t.heap l).parents) : Pruned t t := ⟨rfl, fun _ _ => rfl, hg⟩

theorem modify (h : Pruned t₁ t) {l : Nat} {g : Prefetch A → Prefetch A}
    (hh : ∀ sel, hopsIn t₁ sel (g (t₁.heap l)).parents = hopsIn t₁ sel (t₁.heap l).parents)
    (hg : GoMap (g (t₁.heap l)).parents) : Pruned (t₁.modify l g) t where
  prefetches := h.prefetches
  hops sel l' := by
    rw [← h.hops sel l']
    show hopsIn t₁ sel _ = _
    rw [modify_heap]
    split
    · subst l'
      exact hh sel
    · rfl
  goMap l' := by
    rw [modify_heap]
    split
    · subst l'
      exact hg
    · exact h.goMap l'

theorem runStep (h : Pruned t₁ t) {e : WalkStep κ}
    (he : ∀ l n q, e = .dropParent l n q → t.prefetches q.id = none)
    (hr : KbfsPrefetcher.runStep .skip t₁ e = .ok t₂) : Pruned t₂ t := by
  cases e with
  | apply => cases hr; exact h
  | dropParent l n q =>
    cases hr
    exact h.modify (hopsIn_dropParent (h.prefetches ▸ he l n q rfl) n _) (goMap_dropParent (h.goMap l) n q)
  | dropIfEmpty l n =>
    cases hr
    unfold dropIfEmpty
    split
    · rename_i he'
      exact h.modify (hopsIn_dropBucket t₁ (h.goMap l).1 (List.isEmpty_iff.1 he'))
        (goMap_dropBucket (h.goMap l) n)
    · exact h

theorem runSteps (h : Pruned t₁ t) {steps : List (WalkStep κ)}
    (he : ∀ l n q, WalkStep.dropParent l n q ∈ steps → t.prefetches q.id = none)
    (hr : KbfsPrefetcher.runSteps .skip steps t₁ = .ok t₂) : Pruned t₂ t := by
  induction steps generalizing t₁ with
  | nil => cases hr; exact h
  | cons e es ih =>
    simp only [KbfsPrefetcher.runSteps, List.foldlM_cons] at hr
    obtain ⟨t₃, h₁, hr⟩ := Except.bind_eq_ok hr
    exact ih (h.runStep (fun l n q he' => he l n q (he' ▸ .head _)) h₁)
      (fun l n q hq => he l n q (.tail _ hq)) hr

theorem depthBelow (h : Pruned t₁ t) {n l : Nat} (hd : DepthBelow n l t) : DepthBelow n l t₁ :=
  fun path hp => hd path (hp.imp fun _ _ he => by
    obtain ⟨x, hx, rfl⟩ := parentEdge_iff_hops.1 he
    exact parentEdge_iff_hops.2 ⟨x, h.hops none _ ▸ hx, rfl⟩)

end Pruned

/-! ## The walks' events -/

/-- The events `steps` run `w` from `t` to `t'` as the part of a walk from the record at `l`,
    given the key `k`, that ends the chains `C` in order: they schedule `w`, apply `f` at the
    end of each chain of `C` with its key, and drop only pointers to IDs without a record. -/
structure RunsAs (key : BlockPointer → κ)
    (w : WalkFn A κ → BlockPrefetcher A → Except Abort (BlockPrefetcher A))
    (steps : List (WalkStep κ)) (t t' : BlockPrefetcher A) (k : κ) (l : Nat)
    (C : List (List Hop)) : Prop where
  schedules : Schedules w steps t t'
  applies : steps.filterMap WalkStep.applied = C.map fun c => (chainKey key k c, chainEnd l c)
  prunes : ∀ l' n q, WalkStep.dropParent l' n q ∈ steps → t.prefetches q.id = none

namespace RunsAs

variable {key : BlockPointer → κ}
  {w w₁ w₂ : WalkFn A κ → BlockPrefetcher A → Except Abort (BlockPrefetcher A)}
  {steps s₁ s₂ : List (WalkStep κ)} {t t' t₁ t₂ : BlockPrefetcher A} {k : κ} {l : Nat}
  {C C₁ C₂ : List (List Hop)}

theorem pruned (h : RunsAs key w steps t₁ t₂ k l C) (ht : Pruned t₁ t) : Pruned t₂ t :=
  ht.runSteps (fun l n q hq => ht.prefetches ▸ h.prunes l n q hq) h.schedules.2

theorem congr (h : RunsAs key w steps t t' k l C)
    {w' : WalkFn A κ → BlockPrefetcher A → Except Abort (BlockPrefetcher A)}
    (hw : ∀ f u, SameShape u t → w' f u = w f u) : RunsAs key w' steps t t' k l C :=
  ⟨h.schedules.congr hw, h.applies, h.prunes⟩

theorem bind (h₁ : RunsAs key w₁ s₁ t t₁ k l C₁) (h₂ : RunsAs key w₂ s₂ t₁ t₂ k l C₂) :
    RunsAs key (fun f u => w₁ f u >>= w₂ f) (s₁ ++ s₂) t t₂ k l (C₁ ++ C₂) where
  schedules := h₁.schedules.bind h₂.schedules
  applies := by rw [List.filterMap_append, h₁.applies, h₂.applies, List.map_append]
  prunes l' n q hq := (List.mem_append.1 hq).elim (h₁.prunes l' n q) fun hq =>
    runSteps_skip_prefetches s₁ h₁.schedules.2 ▸ h₂.prunes l' n q hq

/-- A walk from the record the edge `hop` reaches, seen from the record it leaves. -/
theorem cons (hop : Hop) (h : RunsAs key w steps t t' (key hop.pptr) hop.loc C) (k : κ) (l : Nat) :
    RunsAs key w steps t t' k l (C.map (hop :: ·)) :=
  ⟨h.schedules, by simp [h.applies], h.prunes⟩

theorem nil (t : BlockPrefetcher A) : RunsAs key (fun _ u => pure u) [] t t k l [] :=
  ⟨.pure t, rfl, fun _ _ _ h => nomatch h⟩

theorem dropParent (t : BlockPrefetcher A) (l n : Nat) {q : BlockPointer} (hq : t.prefetches q.id = none) :
    RunsAs key (fun f u => runStep f u (.dropParent l n q)) [.dropParent l n q] t
      (t.modify l fun pp => { pp with parents := KbfsPrefetcher.dropParent n q pp.parents }) k l [] :=
  ⟨.single (.dropParent l n q) rfl, rfl, fun _ _ _ h => by cases List.mem_singleton.1 h; exact hq⟩

theorem dropIfEmpty (t : BlockPrefetcher A) (l n : Nat) :
    RunsAs key (fun f u => runStep f u (.dropIfEmpty l n)) [.dropIfEmpty l n] t
      (KbfsPrefetcher.dropIfEmpty l n t) k l [] :=
  ⟨.single (.dropIfEmpty l n) rfl, rfl, fun _ _ _ h => by cases List.mem_singleton.1 h⟩

theorem apply (t : BlockPrefetcher A) : RunsAs key (fun f u => f k l u) [.apply k l] t t k l [[]] :=
  ⟨.single (.apply k l) rfl, rfl, fun _ _ _ h => by cases List.mem_singleton.1 h⟩

end RunsAs

section Loops

variable {key : BlockPointer → κ} {next : BlockPointer → Option Nat} {t : BlockPrefetcher A}
  {fuel : Nat}

/-- The loop over the pointers `qs` of the bucket `n` of the record at `l`, each parent with a
    record walked by `R`: it ends, edge after edge, the chains through each. -/
theorem visitParents_runsAs (R : WalkFn A κ → WalkFn A BlockPointer) (l n : Nat) (k : κ) :
    ∀ (qs : List BlockPointer) {t₁ : BlockPrefetcher A}, Pruned t₁ t →
      (∀ q ∈ qs, ∀ p (t₂ : BlockPrefetcher A), Pruned t₂ t → t.prefetches q.id = some p →
        ∃ steps t₃, RunsAs key (fun f => R f q p) steps t₂ t₃ (key q) p
          (chainsFrom t next fuel (next q) p)) →
      ∃ steps t₂, RunsAs key (fun f u => qs.foldlM (visitParent (R f) l n) u) steps t₁ t₂ k l
        ((liveHops t n qs).flatMap fun h => (chainsFrom t next fuel (next h.pptr) h.loc).map (h :: ·))
  | [], t₁, _, _ => ⟨[], t₁, .nil t₁⟩
  | q :: qs, t₁, ht, IH => by
    obtain ⟨s₁, t₂, h₁⟩ : ∃ s₁ t₂, RunsAs key (fun f u => visitParent (R f) l n u q) s₁ t₁ t₂ k l
        ((liveHops t n [q]).flatMap fun h => (chainsFrom t next fuel (next h.pptr) h.loc).map (h :: ·)) := by
      cases hq : t.prefetches q.id with
      | none =>
        have e : liveHops t n [q] = [] := by simp [liveHops, hq]
        rw [e]
        refine ⟨_, _, (RunsAs.dropParent t₁ l n (ht.prefetches ▸ hq)).congr fun f u hu => ?_⟩
        simp only [visitParent, hu.1, ht.prefetches, hq]
        rfl
      | some p =>
        have e : liveHops t n [q] = [⟨n, q, p⟩] := by simp [liveHops, hq]
        rw [e, List.flatMap_singleton]
        obtain ⟨s₁, t₂, h₁⟩ := IH q (.head _) p t₁ ht hq
        refine ⟨s₁, t₂, (h₁.cons ⟨n, q, p⟩ k l).congr fun f u hu => ?_⟩
        simp only [visitParent, hu.1, ht.prefetches, hq]
    obtain ⟨s₂, t₃, h₂⟩ := visitParents_runsAs R l n k qs (h₁.pruned ht) fun q' hq' => IH q' (.tail _ hq')
    have e : liveHops t n (q :: qs) = liveHops t n [q] ++ liveHops t n qs := List.filterMap_append [q] qs _
    rw [e, List.flatMap_append]
    exact ⟨s₁ ++ s₂, t₃, h₁.bind h₂⟩

/-- The loop of `applyToParentsRecursive` over the buckets `ps` of the record at `l`. -/
theorem visitBuckets_runsAs (R : WalkFn A κ → WalkFn A BlockPointer) (l : Nat) (k : κ) :
    ∀ (ps : Parents) {t₁ : BlockPrefetcher A}, Pruned t₁ t →
      (∀ b ∈ ps, ∀ q ∈ b.2, ∀ p (t₂ : BlockPrefetcher A), Pruned t₂ t → t.prefetches q.id = some p →
        ∃ steps t₃, RunsAs key (fun f => R f q p) steps t₂ t₃ (key q) p
          (chainsFrom t next fuel (next q) p)) →
      ∃ steps t₂, RunsAs key (fun f u => ps.foldlM (fun u b => do
          let u ← b.2.foldlM (visitParent (R f) l b.1) u
          pure (dropIfEmpty l b.1 u)) u) steps t₁ t₂ k l
        ((hopsIn t none ps).flatMap fun h => (chainsFrom t next fuel (next h.pptr) h.loc).map (h :: ·))
  | [], t₁, _, _ => ⟨[], t₁, .nil t₁⟩
  | b :: ps, t₁, ht, IH => by
    obtain ⟨s₁, t₂, h₁⟩ := visitParents_runsAs R l b.1 k b.2 ht (IH b (.head _))
    have h₁' := h₁.bind (RunsAs.dropIfEmpty t₂ l b.1)
    rw [List.append_nil] at h₁'
    obtain ⟨s₂, t₃, h₂⟩ := visitBuckets_runsAs R l k ps (h₁'.pruned ht) fun b' hb' => IH b' (.tail _ hb')
    show ∃ steps t₂, RunsAs key _ steps t₁ t₂ k l
      ((liveHops t b.1 b.2 ++ hopsIn t none ps).flatMap fun h =>
        (chainsFrom t next fuel (next h.pptr) h.loc).map (h :: ·))
    rw [List.flatMap_append]
    exact ⟨_, t₃, h₁'.bind h₂⟩

end Loops

/-- The walk through every bucket runs as the events that end every chain from its record in
    the order of `chainsFrom`. -/
theorem applyToParentsRecursive_runsAs :
    ∀ fuel (blockID l : Nat) (t : BlockPrefetcher A), (∀ l, GoMap (t.heap l).parents) →
      DepthBelow fuel l t → ∃ steps t', RunsAs BlockPointer.id
        (fun f => applyToParentsRecursive f fuel blockID l) steps t t' blockID l
        (chainsFrom t (fun _ => none) fuel none l)
  | 0, _, _, _, _, hd => absurd (hd [] .nil) (Nat.not_lt_zero 0)
  | fuel + 1, blockID, l, t, hg, hd => by
    have ht := Pruned.refl hg
    have IH : ∀ b ∈ (t.heap l).parents, ∀ q ∈ b.2, ∀ p (t₂ : BlockPrefetcher A), Pruned t₂ t →
        t.prefetches q.id = some p → ∃ steps t₃, RunsAs BlockPointer.id
          (fun f => applyToParentsRecursive f fuel q.id p) steps t₂ t₃ q.id p
          (chainsFrom t (fun _ => none) fuel none p) := fun b hb q hq p t₂ ht₂ hp => by
      obtain ⟨steps, t₃, h⟩ := applyToParentsRecursive_runsAs fuel q.id p t₂ ht₂.goMap
        (ht₂.depthBelow (hd.parent ⟨q, List.mem_flatMap.2 ⟨b, hb, hq⟩, hp⟩))
      exact ⟨steps, t₃, chainsFrom_congr ht₂.hops _ fuel _ p ▸ h⟩
    obtain ⟨s₁, t₁, h₁⟩ := visitBuckets_runsAs
      (fun f pptr parent s => applyToParentsRecursive f fuel pptr.id parent s) l blockID _ ht IH
    refine ⟨_, t₁, (h₁.bind (RunsAs.apply t₁)).congr fun f u hu => ?_⟩
    simp only [applyToParentsRecursive, visitAllParents, hu.2 l]

/-- The walk through one ref-nonce runs as the events that end every chain of the ref-nonces
    it follows in the order of `chainsFrom`. -/
theorem applyToPtrParentsRecursive_runsAs :
    ∀ fuel (ptr : BlockPointer) (l : Nat) (t : BlockPrefetcher A), (∀ l, GoMap (t.heap l).parents) →
      DepthBelow fuel l t → ∃ steps t', RunsAs id
        (fun f => applyToPtrParentsRecursive f fuel ptr l) steps t t' ptr l
        (chainsFrom t (fun q => some q.refNonce) fuel (some ptr.refNonce) l)
  | 0, _, _, _, _, hd => absurd (hd [] .nil) (Nat.not_lt_zero 0)
  | fuel + 1, ptr, l, t, hg, hd => by
    have ht := Pruned.refl hg
    have IH : ∀ q ∈ bucketOf ptr.refNonce (t.heap l).parents, ∀ p (t₂ : BlockPrefetcher A),
        Pruned t₂ t → t.prefetches q.id = some p → ∃ steps t₃, RunsAs id
          (fun f => applyToPtrParentsRecursive f fuel q p) steps t₂ t₃ q p
          (chainsFrom t (fun q => some q.refNonce) fuel (some q.refNonce) p) :=
      fun q hq p t₂ ht₂ hp => by
        obtain ⟨steps, t₃, h⟩ := applyToPtrParentsRecursive_runsAs fuel q p t₂ ht₂.goMap
          (ht₂.depthBelow (hd.parent ⟨q, bucketOf_subset _ _ hq, hp⟩))
        exact ⟨steps, t₃, chainsFrom_congr ht₂.hops _ fuel _ p ▸ h⟩
    obtain ⟨s₁, t₁, h₁⟩ := visitParents_runsAs
      (fun f pptr parent s => applyToPtrParentsRecursive f fuel pptr parent s) l ptr.refNonce ptr
      _ ht IH
    have h₂ := h₁.bind (RunsAs.dropIfEmpty t₁ l ptr.refNonce)
    rw [List.append_nil] at h₂
    refine ⟨_, _, (h₂.bind (RunsAs.apply _)).congr fun f u hu => ?_⟩
    simp only [applyToPtrParentsRecursive, visitPtrParents, hu.2 l]
    rfl

/-! ## The schedule -/

/-- What the events `steps` of a walk from the record at `loc` of `s` do, given the key `k` and
    taking the buckets `sel` there, against the chains `L` of parent edges from it: `f` is
    applied once per chain of `L`, at its end and with its key, in the order of `L`; `L` holds
    every chain, each after every chain that extends it; only the empty chain ends at `loc`;
    and the walk drops only pointers to IDs without a record. -/
structure WalkSchedule (key : BlockPointer → κ) (next : BlockPointer → Option Nat)
    (s : BlockPrefetcher A) (k : κ) (sel : Option Nat) (loc : Nat) (steps : List (WalkStep κ))
    (L : List (List Hop)) : Prop where
  applies : steps.filterMap WalkStep.applied = L.map fun c => (chainKey key k c, chainEnd loc c)
  chains : ∀ c, c ∈ L ↔ Chain s next sel loc c
  postorder : L.Pairwise fun c d => ¬c <+: d
  self : ∀ c ∈ L, chainEnd loc c = loc → c = []
  prunes : ∀ l n q, WalkStep.dropParent l n q ∈ steps → s.prefetches q.id = none

theorem RunsAs.walkSchedule {key : BlockPointer → κ} {next : BlockPointer → Option Nat}
    {w : WalkFn A κ → BlockPrefetcher A → Except Abort (BlockPrefetcher A)}
    {steps : List (WalkStep κ)} {s s' : BlockPrefetcher A} {k : κ} {sel : Option Nat}
    {loc fuel : Nat} (h : RunsAs key w steps s s' k loc (chainsFrom s next fuel sel loc))
    (hd : DepthBelow fuel loc s) (hac : ∀ l, ¬Relation.TransGen (ParentEdge s) l l)
    (hg : ∀ l, GoMap (s.heap l).parents) :
    WalkSchedule key next s k sel loc steps (chainsFrom s next fuel sel loc) where
  applies := h.applies
  chains _ := mem_chainsFrom hd
  postorder := chainsFrom_postorder (fun sel l => hopsIn_nodup s (hg l) sel) fuel sel loc
  self c hc he := by
    by_contra hne
    have := ((mem_chainsFrom hd).1 hc).transGen hne
    rw [he] at this
    exact hac loc this
  prunes := h.prunes

/-- With no cycle of parent edges and every stored record below `next`, `run`'s depth bound
    `next + 1` is above every chain. -/
theorem depthBelow_walkFuel {s : BlockPrefetcher A} (hac : ∀ l, ¬Relation.TransGen (ParentEdge s) l l)
    (halloc : ∀ i l, s.prefetches i = some l → l < s.next) (loc : Nat) : DepthBelow s.walkFuel loc s :=
  fun _ h => Nat.lt_succ_of_le (chain_length_le_next hac halloc h)

/-- On a state whose parent-edge graph has no cycle (its records below `next`, its parent maps
    Go maps), each walk from any record runs, for every `f` that changes counts only, as one
    list of events. They apply `f` once per chain of parent edges from the record, at the
    chain's end, each chain after every chain extending it, so the record's own last and once;
    beside that they only drop pointers to IDs without a record and buckets left empty. The
    walk through every bucket takes every edge; the walk through `ptr` takes, at each record,
    only the bucket of the ref-nonce of the pointer it came through. -/
theorem walks_schedule {s : BlockPrefetcher A} (hac : ∀ l, ¬Relation.TransGen (ParentEdge s) l l)
    (halloc : ∀ i l, s.prefetches i = some l → l < s.next) (hg : ∀ l, GoMap (s.heap l).parents)
    (loc : Nat) :
    (∀ blockID : Nat, ∃ steps L, (∀ f : WalkFn A Nat, f.CountOnly →
        applyToParentsRecursive f s.walkFuel blockID loc s = runSteps f steps s) ∧
      WalkSchedule BlockPointer.id (fun _ => none) s blockID none loc steps L) ∧
    (∀ ptr : BlockPointer, ∃ steps L, (∀ f : WalkFn A BlockPointer, f.CountOnly →
        applyToPtrParentsRecursive f s.walkFuel ptr loc s = runSteps f steps s) ∧
      WalkSchedule id (fun q => some q.refNonce) s ptr (some ptr.refNonce) loc steps L) := by
  have hd := depthBelow_walkFuel hac halloc loc
  refine ⟨fun blockID => ?_, fun ptr => ?_⟩
  · obtain ⟨steps, _, h⟩ := applyToParentsRecursive_runsAs s.walkFuel blockID loc s hg hd
    exact ⟨steps, _, fun f hf => h.schedules.1 f hf s (.refl s), h.walkSchedule hd hac hg⟩
  · obtain ⟨steps, _, h⟩ := applyToPtrParentsRecursive_runsAs s.walkFuel ptr loc s hg hd
    exact ⟨steps, _, fun f hf => h.schedules.1 f hf s (.refl s), h.walkSchedule hd hac hg⟩

/-! ## A diamond -/

/-- Block 3's record (at 2) hangs below block 1's (at 0) and block 2's (at 1) through its
    bucket 0, and below ID 7, which has no record, through its bucket 1; block 2's record hangs
    below block 1's. -/
def diamondState : BlockPrefetcher Unit where
  prefetches i := if i = 1 then some 0 else if i = 2 then some 1 else if i = 3 then some 2 else none
  heap l :=
    if l = 2 then { (default : Prefetch Unit) with parents := [(0, [⟨1, 0⟩, ⟨2, 0⟩]), (1, [⟨7, 0⟩])] }
    else if l = 1 then { (default : Prefetch Unit) with parents := [(0, [⟨1, 0⟩])] }
    else default
  next := 3
  rescheduled _ := none
  out := []

theorem parentEdge_diamondState {a b : Nat} (h : ParentEdge diamondState a b) : b < a := by
  obtain ⟨q, hq, hp⟩ := h
  by_cases h2 : a = 2
  · subst h2
    have : q = ⟨1, 0⟩ ∨ q = ⟨2, 0⟩ ∨ q = ⟨7, 0⟩ := by simpa [diamondState, allParents] using hq
    rcases this with rfl | rfl | rfl <;> simp [diamondState] at hp <;> omega
  · by_cases h1 : a = 1
    · subst h1
      have : q = ⟨1, 0⟩ := by simpa [diamondState, allParents] using hq
      subst this
      simp [diamondState] at hp
      omega
    · have : (diamondState.heap a).parents = [] := by simp [diamondState, h1, h2]; rfl
      simp [this, allParents] at hq

/-- The diamond meets the theorem's hypotheses, so both walks from block 3's record run as
    their schedules. -/
theorem diamondState_walks_schedule :
    (∀ l, ¬Relation.TransGen (ParentEdge diamondState) l l) ∧
    (∀ i l, diamondState.prefetches i = some l → l < diamondState.next) ∧
    (∀ l, GoMap (diamondState.heap l).parents) ∧
    (∀ blockID : Nat, ∃ steps L, (∀ f : WalkFn Unit Nat, f.CountOnly →
        applyToParentsRecursive f diamondState.walkFuel blockID 2 diamondState =
          runSteps f steps diamondState) ∧
      WalkSchedule BlockPointer.id (fun _ => none) diamondState blockID none 2 steps L) ∧
    (∀ ptr : BlockPointer, ∃ steps L, (∀ f : WalkFn Unit BlockPointer, f.CountOnly →
        applyToPtrParentsRecursive f diamondState.walkFuel ptr 2 diamondState =
          runSteps f steps diamondState) ∧
      WalkSchedule id (fun q => some q.refNonce) diamondState ptr (some ptr.refNonce) 2 steps L) := by
  have hac : ∀ l, ¬Relation.TransGen (ParentEdge diamondState) l l := fun l hl => by
    have key : ∀ a b, Relation.TransGen (ParentEdge diamondState) a b → b < a := by
      intro a b h
      induction h with
      | single h => exact parentEdge_diamondState h
      | tail _ h ih => exact (parentEdge_diamondState h).trans ih
    exact Nat.lt_irrefl l (key l l hl)
  have halloc : ∀ i l, diamondState.prefetches i = some l → l < diamondState.next := by
    intro i l h
    simp only [diamondState] at h
    split_ifs at h <;> cases h <;> decide
  have hg : ∀ l, GoMap (diamondState.heap l).parents := by
    intro l
    simp only [diamondState]
    split_ifs <;> decide
  exact ⟨hac, halloc, hg, walks_schedule hac halloc hg 2⟩

/-- Adding 1 along the walk from block 3's record: block 1's record, at the end of two chains,
    gets 2. -/
example : (applyToParentsRecursive (addSubtreeBlocks 1) diamondState.walkFuel 3 2 diamondState).map
    (fun u => ((u.heap 0).subtreeBlockCount, (u.heap 1).subtreeBlockCount,
      (u.heap 2).subtreeBlockCount, (u.heap 2).parents)) =
    .ok (2, 1, 1, [(0, [⟨1, 0⟩, ⟨2, 0⟩])]) := rfl

end KbfsPrefetcher
