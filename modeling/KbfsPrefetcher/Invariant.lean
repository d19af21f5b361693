import KbfsPrefetcher.Run

/-
  The invariant of reachable states, and what the walks keep of it.

  `Wf store s`: every record `prefetches` stores under an ID is allocated, was made for a
  request of that ID, and is open (its wait channel not closed); every parent pointer in
  any record of the heap names a block that lists the record's block among its children
  in `store`; and every parent map is a Go map (`GoMap`: a ref-nonce has one bucket, a
  bucket holds a pointer once).

  `Within s' s`: `s'` keeps every record location, request pointer, triggered flag and the
  heap size of `s`, and has no record stored and no parent pointer that `s` lacks. Every
  function a walk applies keeps `Wf` and ends `Within` its start (`*_keeps`), and writes
  only its own record and the map entries of its ID (`*_local`).

  Results are stated with `Except.Holds E P r`: `r` is an error satisfying `E`, or a value
  satisfying `P`. `applyToParentsRecursive_holds` and `applyToPtrParentsRecursive_holds`
  are the inductions over the walks' fuel, for any relation a `LoopRel` closes under the
  walks' steps: `Wf` preservation (`LoopRel.within`), the frame of a walk
  (`LoopRel.frame`) and termination (`Termination`) are instances.
-/

/-! ## Postconditions of `Except` computations -/

/-- `r` is an error satisfying `E` or a value satisfying `P`. -/
def Except.Holds {ε β : Type} (E : ε → Prop) (P : β → Prop) : Except ε β → Prop
  | .ok b => P b
  | .error e => E e

namespace Except.Holds

variable {ε β γ : Type} {E : ε → Prop} {P : β → Prop} {Q : γ → Prop}

@[simp] theorem ok {b : β} : (Except.ok b : Except ε β).Holds E P ↔ P b := Iff.rfl

@[simp] theorem error {e : ε} : (Except.error e : Except ε β).Holds E P ↔ E e := Iff.rfl

@[simp] theorem pure_iff {b : β} : (pure b : Except ε β).Holds E P ↔ P b := Iff.rfl

@[simp] theorem throw_iff {e : ε} : (throw e : Except ε β).Holds E P ↔ E e := Iff.rfl

@[simp] theorem map_iff {g : β → γ} {x : Except ε β} :
    (g <$> x).Holds E Q ↔ x.Holds E fun b => Q (g b) := by
  cases x <;> rfl

@[simp] theorem throw_bind {e : ε} {g : β → Except ε γ} :
    ((throw e : Except ε β) >>= g).Holds E Q ↔ E e := Iff.rfl

@[simp] theorem pure_bind {b : β} {g : β → Except ε γ} :
    ((pure b : Except ε β) >>= g).Holds E Q ↔ (g b).Holds E Q := Iff.rfl

theorem bind {x : Except ε β} {g : β → Except ε γ} (hx : x.Holds E P)
    (hg : ∀ b, P b → (g b).Holds E Q) : (x >>= g).Holds E Q := by
  cases x with
  | error e => exact hx
  | ok b => exact hg b hx

theorem ite {c : Prop} [Decidable c] {x y : Except ε β} (hx : c → x.Holds E P)
    (hy : ¬c → y.Holds E P) : (if c then x else y).Holds E P := by
  by_cases h : c
  · rw [if_pos h]; exact hx h
  · rw [if_neg h]; exact hy h

theorem imp {x : Except ε β} {P' : β → Prop} (hx : x.Holds E P) (h : ∀ b, P b → P' b) :
    x.Holds E P' := by
  cases x with
  | error e => exact hx
  | ok b => exact h b hx

theorem imp_error {x : Except ε β} {E' : ε → Prop} (hx : x.Holds E P) (h : ∀ e, E e → E' e) :
    x.Holds E' P := by
  cases x with
  | error e => exact h e hx
  | ok b => exact hx

/-- A computation ends normally in states satisfying both postconditions. -/
theorem and {x : Except ε β} {P' : β → Prop} (hx : x.Holds E P) (hy : x.Holds (fun _ => True) P') :
    x.Holds E fun b => P b ∧ P' b := by
  cases x with
  | error _ => exact hx
  | ok _ => exact ⟨hx, hy⟩

theorem ne_error {x : Except ε β} {e : ε} (hx : x.Holds E P) (he : ¬E e) : x ≠ .error e := by
  rintro rfl
  exact he hx

theorem of_ok {x : Except ε β} {b : β} (hx : x.Holds E P) (h : x = .ok b) : P b := by
  subst h; exact hx

/-- `Holds` with no error allowed: the computation ends normally. -/
theorem exists_ok {x : Except ε β} (h : x.Holds (fun _ => False) P) : ∃ b, x = .ok b ∧ P b := by
  cases x with
  | error e => exact h.elim
  | ok b => exact ⟨b, rfl, h⟩

theorem foldlM {α : Type} {f : β → α → Except ε β} {l : List α} {b : β}
    (hf : ∀ b x, x ∈ l → P b → (f b x).Holds E P) (hb : P b) : (l.foldlM f b).Holds E P := by
  induction l generalizing b with
  | nil => exact hb
  | cons x l ih =>
    exact bind (hf b x (.head _) hb) fun b' hb' =>
      ih (fun b y hy => hf b y (.tail _ hy)) hb'

end Except.Holds

namespace KbfsPrefetcher

open BlockPrefetcher

variable {A : Type}

/-! ## Parent maps -/

theorem bucketOf_subset (n : Nat) (ps : Parents) : bucketOf n ps ⊆ allParents ps := by
  induction ps with
  | nil => simp [bucketOf]
  | cons b ps ih =>
    obtain ⟨m, l⟩ := b
    unfold bucketOf allParents
    split
    · exact List.subset_append_left _ _
    · exact ih.trans (List.subset_append_right _ _)

theorem allParents_dropBucket (n : Nat) (ps : Parents) :
    allParents (dropBucket n ps) ⊆ allParents ps := by
  intro q hq
  simp only [allParents, dropBucket, List.mem_flatMap, List.mem_filter] at hq ⊢
  obtain ⟨b, ⟨hb, -⟩, hq⟩ := hq
  exact ⟨b, hb, hq⟩

theorem allParents_dropParent (n : Nat) (p : BlockPointer) (ps : Parents) :
    allParents (dropParent n p ps) ⊆ allParents ps := by
  intro q hq
  simp only [allParents, dropParent, List.mem_flatMap, List.mem_map] at hq ⊢
  obtain ⟨_, ⟨b, hb, rfl⟩, hq⟩ := hq
  refine ⟨b, hb, ?_⟩
  split at hq
  · exact List.mem_of_mem_erase hq
  · exact hq

theorem mem_allParents_addParent {n : Nat} {p q : BlockPointer} {ps : Parents}
    (h : q ∈ allParents (addParent n p ps)) : q = p ∨ q ∈ allParents ps := by
  induction ps with
  | nil => simpa [addParent, allParents] using h
  | cons b ps ih =>
    obtain ⟨m, l⟩ := b
    simp only [addParent] at h
    split at h
    · simp only [allParents, List.flatMap_cons, List.mem_append] at h ⊢
      split at h
      · exact .inr h
      · simp only [List.mem_append, List.mem_singleton] at h
        rcases h with (h | rfl) | h
        · exact .inr (.inl h)
        · exact .inl rfl
        · exact .inr (.inr h)
    · simp only [allParents, List.flatMap_cons, List.mem_append] at h ⊢
      rcases h with h | h
      · exact .inr (.inl h)
      · rcases ih h with h | h
        · exact .inl h
        · exact .inr (.inr h)

/-- A parent map as Go holds it, a map of sets: no ref-nonce has two buckets and no bucket
    holds a pointer twice. -/
def GoMap (ps : Parents) : Prop := (ps.map Prod.fst).Nodup ∧ ∀ b ∈ ps, b.2.Nodup

instance (ps : Parents) : Decidable (GoMap ps) := inferInstanceAs (Decidable (_ ∧ _))

theorem goMap_dropParent {ps : Parents} (h : GoMap ps) (n : Nat) (q : BlockPointer) :
    GoMap (dropParent n q ps) := by
  refine ⟨?_, fun b hb => ?_⟩
  · have : (dropParent n q ps).map Prod.fst = ps.map Prod.fst := by
      simp only [dropParent, List.map_map]
      exact List.map_congr_left fun b _ => by simp only [Function.comp]; split <;> rfl
    exact this ▸ h.1
  · obtain ⟨b', hb', rfl⟩ := List.mem_map.1 hb
    split
    · exact (h.2 b' hb').erase q
    · exact h.2 b' hb'

theorem goMap_dropBucket {ps : Parents} (h : GoMap ps) (n : Nat) : GoMap (dropBucket n ps) :=
  ⟨h.1.sublist ((List.filter_sublist ps).map _), fun b hb => h.2 b (List.mem_filter.1 hb).1⟩

theorem keys_addParent_subset (n : Nat) (q : BlockPointer) (ps : Parents) :
    (addParent n q ps).map Prod.fst ⊆ n :: ps.map Prod.fst := by
  induction ps with
  | nil => simp [addParent]
  | cons b ps ih =>
    obtain ⟨m, l⟩ := b
    simp only [addParent]
    split
    · exact List.subset_cons_self _ _
    · rw [List.map_cons, List.map_cons]
      exact List.cons_subset.2 ⟨.tail _ (.head _),
        ih.trans (List.cons_subset_cons _ (List.subset_cons_self _ _))⟩

/-- `parents[refNonce][pptr] = true` keeps a Go map: it fills the bucket of `refNonce` or
    makes it, and a pointer goes in only once. -/
theorem goMap_addParent {ps : Parents} (h : GoMap ps) (n : Nat) (q : BlockPointer) :
    GoMap (addParent n q ps) := by
  induction ps with
  | nil => simp [GoMap, addParent]
  | cons b ps ih =>
    obtain ⟨m, l⟩ := b
    obtain ⟨hm, hk⟩ := List.nodup_cons.1 h.1
    have hl : l.Nodup := h.2 _ (.head _)
    simp only [addParent]
    split
    · refine ⟨h.1, fun b hb => ?_⟩
      rcases List.mem_cons.1 hb with rfl | hb
      · split
        · exact hl
        · exact hl.append (List.nodup_singleton q) (List.disjoint_singleton.2 ‹_›)
      · exact h.2 b (.tail _ hb)
    · rename_i hmn
      have ih := ih ⟨hk, fun b hb => h.2 b (.tail _ hb)⟩
      refine ⟨List.nodup_cons.2 ⟨fun hm' => ?_, ih.1⟩, fun b hb => ?_⟩
      · rcases List.mem_cons.1 (keys_addParent_subset n q ps hm') with e | hm'
        exacts [hmn e, hm hm']
      · rcases List.mem_cons.1 hb with rfl | hb
        exacts [hl, ih.2 b hb]

/-- `s'` lies within `s`: same heap size, request pointers and triggered flags, no stored
    record or parent pointer that `s` lacks, and each parent map of `s` that is a Go map
    still one. -/
structure BlockPrefetcher.Within (s' s : BlockPrefetcher A) : Prop where
  prefetches : ∀ id loc, s'.prefetches id = some loc → s.prefetches id = some loc
  next : s'.next = s.next
  ptr : ∀ loc, (s'.heap loc).req.ptr = (s.heap loc).req.ptr
  parents : ∀ loc, allParents (s'.heap loc).parents ⊆ allParents (s.heap loc).parents
  closed : ∀ id loc, s'.prefetches id = some loc → (s'.heap loc).closed = (s.heap loc).closed
  triggered : ∀ loc, (s'.heap loc).subtreeTriggered = (s.heap loc).subtreeTriggered
  goMap : ∀ loc, GoMap (s.heap loc).parents → GoMap (s'.heap loc).parents

/-! ## Shrinking -/

namespace BlockPrefetcher.Within

@[refl] theorem refl (s : BlockPrefetcher A) : s.Within s :=
  ⟨fun _ _ h => h, rfl, fun _ => rfl, fun _ => List.Subset.refl _, fun _ _ _ => rfl, fun _ => rfl,
    fun _ => id⟩

theorem trans {s'' s' s : BlockPrefetcher A} (h₂ : s''.Within s') (h₁ : s'.Within s) :
    s''.Within s :=
  ⟨fun id loc h => h₁.prefetches id loc (h₂.prefetches id loc h), h₂.next.trans h₁.next,
    fun loc => (h₂.ptr loc).trans (h₁.ptr loc), fun loc => (h₂.parents loc).trans (h₁.parents loc),
    fun id loc h => (h₂.closed id loc h).trans (h₁.closed id loc (h₂.prefetches id loc h)),
    fun loc => (h₂.triggered loc).trans (h₁.triggered loc), fun loc h => h₂.goMap loc (h₁.goMap loc h)⟩

/-- A change of the maps alone, with no new record stored. -/
theorem of_heap_eq {s' s : BlockPrefetcher A} (hp : ∀ id loc, s'.prefetches id = some loc → s.prefetches id = some loc)
    (hn : s'.next = s.next) (hh : s'.heap = s.heap) : s'.Within s :=
  ⟨hp, hn, fun _ => by rw [hh], fun _ => by rw [hh]; exact List.Subset.refl _, fun _ _ _ => by rw [hh],
    fun _ => by rw [hh], fun _ => by rw [hh]; exact id⟩

/-- A write that keeps the request pointer, the closed and triggered flags, adds no parent
    pointer and keeps a Go map one. -/
theorem modify {s : BlockPrefetcher A} {loc : Nat} {g : Prefetch A → Prefetch A}
    (hp : (g (s.heap loc)).req.ptr = (s.heap loc).req.ptr)
    (hq : allParents (g (s.heap loc)).parents ⊆ allParents (s.heap loc).parents)
    (hg : GoMap (s.heap loc).parents → GoMap (g (s.heap loc)).parents)
    (hc : (g (s.heap loc)).closed = (s.heap loc).closed)
    (ht : (g (s.heap loc)).subtreeTriggered = (s.heap loc).subtreeTriggered) :
    (s.modify loc g).Within s := by
  refine ⟨fun _ _ h => h, rfl, fun l => ?_, fun l => ?_, fun _ l _ => ?_, fun l => ?_, fun l => ?_⟩ <;>
    by_cases hl : l = loc <;> simp [hl, hp, hq, hc, ht]
  exact hg

theorem deletePrefetch (s : BlockPrefetcher A) (id : Nat) : (s.deletePrefetch id).Within s :=
  of_heap_eq (fun i l h => by by_cases hi : i = id <;> simp_all) rfl rfl

theorem clearRescheduleState (s : BlockPrefetcher A) (id : Nat) :
    (s.clearRescheduleState id).Within s := by
  unfold BlockPrefetcher.clearRescheduleState
  split
  · rfl
  · exact of_heap_eq (fun _ _ h => h) rfl rfl

theorem deleteRescheduled (s : BlockPrefetcher A) (id : Nat) :
    (s.deleteRescheduled id).Within s := of_heap_eq (fun _ _ h => h) rfl rfl

theorem setRescheduled (s : BlockPrefetcher A) (id : Nat) (rp) :
    (s.setRescheduled id rp).Within s := of_heap_eq (fun _ _ h => h) rfl rfl

theorem emit (s : BlockPrefetcher A) (o) : (s.emit o).Within s := of_heap_eq (fun _ _ h => h) rfl rfl

theorem emitIf (s : BlockPrefetcher A) (c o) : (s.emitIf c o).Within s :=
  of_heap_eq (fun _ _ h => h) rfl rfl

/-- Closing a record no ID stores. -/
theorem close {s s' : BlockPrefetcher A} {loc : Nat} (hl : ∀ id, s.prefetches id ≠ some loc)
    (h : s.close loc = .ok s') : s'.Within s := by
  obtain ⟨-, rfl⟩ := BlockPrefetcher.close_eq_ok h
  refine ⟨fun _ _ h => h, rfl, fun l => ?_, fun l => ?_, fun id l hid => ?_, fun l => ?_, fun l => ?_⟩
  · by_cases hl : l = loc <;> simp [hl]
  · by_cases hl : l = loc <;> simp [hl]
  · have : l ≠ loc := fun e => hl id (e ▸ hid)
    simp [this]
  · by_cases hl : l = loc <;> simp [hl]
  · by_cases hl : l = loc <;> simp [hl]

theorem dropIfEmpty (s : BlockPrefetcher A) (loc n : Nat) : (dropIfEmpty loc n s).Within s := by
  unfold KbfsPrefetcher.dropIfEmpty
  split
  · exact modify rfl (allParents_dropBucket _ _) (goMap_dropBucket · _) rfl rfl
  · rfl

theorem dropParent (s : BlockPrefetcher A) (loc n : Nat) (p : BlockPointer) :
    (s.modify loc fun pp => { pp with parents := KbfsPrefetcher.dropParent n p pp.parents }).Within s :=
  modify rfl (allParents_dropParent _ _ _) (goMap_dropParent · _ _) rfl rfl

end BlockPrefetcher.Within

/-! ## Local writes -/

/-- `t'` differs from `t` at most in the record at `loc` and in the entries of the ID `id`
    in `prefetches` and `rescheduled`. -/
structure BlockPrefetcher.Local (t' t : BlockPrefetcher A) (loc id : Nat) : Prop where
  heap : ∀ l, l ≠ loc → t'.heap l = t.heap l
  prefetches : ∀ i, i ≠ id → t'.prefetches i = t.prefetches i
  rescheduled : ∀ i, i ≠ id → t'.rescheduled i = t.rescheduled i

namespace BlockPrefetcher.Local

theorem refl (t : BlockPrefetcher A) (loc id : Nat) : t.Local t loc id :=
  ⟨fun _ _ => rfl, fun _ _ => rfl, fun _ _ => rfl⟩

theorem trans {t'' t' t : BlockPrefetcher A} {loc id : Nat} (h₂ : t''.Local t' loc id)
    (h₁ : t'.Local t loc id) : t''.Local t loc id :=
  ⟨fun l hl => (h₂.heap l hl).trans (h₁.heap l hl),
    fun i hi => (h₂.prefetches i hi).trans (h₁.prefetches i hi),
    fun i hi => (h₂.rescheduled i hi).trans (h₁.rescheduled i hi)⟩

theorem modify (t : BlockPrefetcher A) (loc id : Nat) (g : Prefetch A → Prefetch A) :
    (t.modify loc g).Local t loc id :=
  ⟨fun l hl => by simp [hl], fun _ _ => rfl, fun _ _ => rfl⟩

theorem deletePrefetch (t : BlockPrefetcher A) (loc id : Nat) : (t.deletePrefetch id).Local t loc id :=
  ⟨fun _ _ => rfl, fun i hi => by simp [hi], fun _ _ => rfl⟩

theorem clearRescheduleState (t : BlockPrefetcher A) (loc id : Nat) :
    (t.clearRescheduleState id).Local t loc id :=
  ⟨fun _ _ => by simp, fun _ _ => by simp, fun _ hi => clearRescheduleState_rescheduled_ne _ hi⟩

theorem deleteRescheduled (t : BlockPrefetcher A) (loc id : Nat) :
    (t.deleteRescheduled id).Local t loc id :=
  ⟨fun _ _ => rfl, fun _ _ => rfl, fun i hi => by simp [hi]⟩

theorem setRescheduled (t : BlockPrefetcher A) (loc id : Nat) (rp) :
    (t.setRescheduled id rp).Local t loc id :=
  ⟨fun _ _ => rfl, fun _ _ => rfl, fun i hi => by simp [hi]⟩

theorem emit (t : BlockPrefetcher A) (loc id : Nat) (o) : (t.emit o).Local t loc id :=
  ⟨fun _ _ => rfl, fun _ _ => rfl, fun _ _ => rfl⟩

theorem emitIf (t : BlockPrefetcher A) (loc id : Nat) (c o) : (t.emitIf c o).Local t loc id :=
  ⟨fun _ _ => rfl, fun _ _ => rfl, fun _ _ => rfl⟩

/-- Closing the record at `loc` after local writes. -/
theorem close_holds {t t' : BlockPrefetcher A} {loc id : Nat} (h : t'.Local t loc id) :
    (t'.close loc).Holds (fun _ => True) (·.Local t loc id) := by
  cases hc : t'.close loc with
  | error _ => trivial
  | ok u =>
    obtain ⟨-, rfl⟩ := close_eq_ok hc
    exact (modify _ _ _ _).trans h

end BlockPrefetcher.Local

/-! ## The invariant -/

/-- The block `p` lists a child with ID `c` among the pointers the prefetcher follows. -/
def ChildOf (store : Nat → Block) (p c : Nat) : Prop := ∃ ptr ∈ (store p).childPtrs, ptr.id = c

/-- The invariant of reachable states. -/
structure Wf (store : Nat → Block) (s : BlockPrefetcher A) : Prop where
  allocated : ∀ id loc, s.prefetches id = some loc → loc < s.next
  keyed : ∀ id loc, s.prefetches id = some loc → (s.heap loc).req.ptr.id = id
  isOpen : ∀ id loc, s.prefetches id = some loc → (s.heap loc).closed = false
  edges : ∀ loc, ∀ q ∈ allParents (s.heap loc).parents, ChildOf store q.id (s.heap loc).req.ptr.id
  goMap : ∀ loc, GoMap (s.heap loc).parents

variable {store : Nat → Block}

theorem Wf.empty [Inhabited A] : Wf store (BlockPrefetcher.empty : BlockPrefetcher A) :=
  ⟨fun _ _ h => (nomatch h), fun _ _ h => (nomatch h), fun _ _ h => (nomatch h),
    fun _ q hq => by
      have : (default : Prefetch A).parents = [] := rfl
      simp [BlockPrefetcher.empty, allParents, this] at hq,
    fun _ => ⟨List.nodup_nil, nofun⟩⟩

theorem Wf.of_within {s s' : BlockPrefetcher A} (hs : Wf store s) (h : s'.Within s) :
    Wf store s' where
  allocated id loc hid := h.next ▸ hs.allocated id loc (h.prefetches id loc hid)
  keyed id loc hid := by rw [h.ptr loc]; exact hs.keyed id loc (h.prefetches id loc hid)
  isOpen id loc hid := (h.closed id loc hid).trans (hs.isOpen id loc (h.prefetches id loc hid))
  edges loc q hq := by rw [h.ptr loc]; exact hs.edges loc q (h.parents loc hq)
  goMap loc := h.goMap loc (hs.goMap loc)

/-- No ID stores the record of `id` once `id` is deleted. -/
theorem Wf.unstored {s : BlockPrefetcher A} (hs : Wf store s) {id loc : Nat}
    (hk : (s.heap loc).req.ptr.id = id) (i : Nat) : (s.deletePrefetch id).prefetches i ≠ some loc := by
  intro h
  by_cases hi : i = id
  · simp [hi] at h
  · simp only [deletePrefetch_prefetches, hi, if_false] at h
    exact hi ((hs.keyed i loc h).symm.trans hk)

/-! ## Parent edges -/

/-- The record at `c` has, in one of its buckets, a pointer to an ID whose record is at `p`. -/
def ParentEdge (s : BlockPrefetcher A) (c p : Nat) : Prop :=
  ∃ q ∈ allParents (s.heap c).parents, s.prefetches q.id = some p

theorem ParentEdge.of_within {s s' : BlockPrefetcher A} (h : s'.Within s) {c p : Nat}
    (he : ParentEdge s' c p) : ParentEdge s c p :=
  let ⟨q, hq, hp⟩ := he
  ⟨q, h.parents c hq, h.prefetches _ _ hp⟩

theorem ParentEdge.reflTransGen_of_within {s s' : BlockPrefetcher A} (h : s'.Within s) {c p : Nat}
    (he : Relation.ReflTransGen (ParentEdge s') c p) : Relation.ReflTransGen (ParentEdge s) c p :=
  he.mono fun _ _ => ParentEdge.of_within h

/-! ## The walks -/

section Walks

variable {E : Abort → Prop} {κ : Type}

/-- A function a walk may apply to the record at `loc` of the block `key k`: from a
    well-formed state it ends in a well-formed state within its start, or fails with `E`. -/
def WalkFn.Keeps (store : Nat → Block) (E : Abort → Prop) (key : κ → Nat) (f : WalkFn A κ) : Prop :=
  ∀ k loc t, Wf store t → (t.heap loc).req.ptr.id = key k →
    (f k loc t).Holds E fun t' => Wf store t' ∧ t'.Within t

theorem WalkFn.Keeps.mono {key : κ → Nat} {f : WalkFn A κ} {E' : Abort → Prop}
    (hf : f.Keeps store E key) (hE : ∀ e, E e → E' e) : f.Keeps store E' key :=
  fun k loc t ht hk => (hf k loc t ht hk).imp_error hE

/-- A function a walk may apply writes only the record it is applied to and the map
    entries of the ID `key k`. -/
def WalkFn.IsLocal (key : κ → Nat) (f : WalkFn A κ) : Prop :=
  ∀ k loc t, (f k loc t).Holds (fun _ => True) (·.Local t loc (key k))

/-- What a walk's depth bound must satisfy: running out meets `E`, and what is enough at
    a record is enough, one less, at each of its parents still stored after earlier
    steps of the walk. -/
structure FuelSpec (store : Nat → Block) (E : Abort → Prop)
    (Enough : Nat → Nat → BlockPrefetcher A → Prop) : Prop where
  zero : ∀ loc s, Enough 0 loc s → E .stackExhausted
  succ : ∀ n loc s s' q parent, Wf store s → Enough (n + 1) loc s →
    q ∈ allParents (s.heap loc).parents → s'.Within s → s'.prefetches q.id = some parent →
    Enough n parent s'

/-- No depth bound at all: running out is just one more outcome. -/
theorem FuelSpec.any : FuelSpec store (fun _ => True) fun _ _ (_ : BlockPrefetcher A) => True :=
  ⟨fun _ _ _ => trivial, fun _ _ _ _ _ _ _ _ _ _ _ => trivial⟩

/-- A relation `P s loc t` between the start `s` of the loop of a walk called on the record
    at `loc` and a state `t` the loop reaches, given the relation `Q` every walk it calls
    at a parent ends in: closed under dropping parent pointers of the record and under a
    walk from a parent still stored. A walk's own relation is a loop relation for itself. -/
structure LoopRel (store : Nat → Block) (P Q : BlockPrefetcher A → Nat → BlockPrefetcher A → Prop) :
    Prop where
  wf : ∀ {s loc t}, P s loc t → Wf store t ∧ t.Within s
  refl : ∀ {s} loc, Wf store s → P s loc s
  prune : ∀ {s loc t} (g : Parents → Parents), P s loc t →
    allParents (g (t.heap loc).parents) ⊆ allParents (t.heap loc).parents → (∀ ps, GoMap ps → GoMap (g ps)) →
    P s loc (t.modify loc fun pp => { pp with parents := g pp.parents })
  parent : ∀ {s loc t p u}, Wf store s → P s loc t → ParentEdge s loc p →
    (∃ id, t.prefetches id = some p) → Q t p u → P s loc u

variable {Enough : Nat → Nat → BlockPrefetcher A → Prop}
  {P Q : BlockPrefetcher A → Nat → BlockPrefetcher A → Prop}

theorem LoopRel.dropIfEmpty (hP : LoopRel store P Q) {s t : BlockPrefetcher A} {loc n : Nat}
    (ht : P s loc t) : P s loc (dropIfEmpty loc n t) := by
  unfold KbfsPrefetcher.dropIfEmpty
  split
  · exact hP.prune _ ht (allParents_dropBucket _ _) fun _ h => goMap_dropBucket h _
  · exact ht

/-- One step of a walk's inner loop. -/
theorem visitParent_holds (hP : LoopRel store P Q) (hE : FuelSpec store E Enough)
    {recur : WalkFn A BlockPointer} {s t : BlockPrefetcher A} {loc n fuel : Nat} {pptr : BlockPointer}
    (hs : Wf store s) (hen : Enough (fuel + 1) loc s) (hp : pptr ∈ allParents (s.heap loc).parents)
    (ht : P s loc t)
    (hrec : ∀ parent, Wf store t → (t.heap parent).req.ptr.id = pptr.id → Enough fuel parent t →
      (recur pptr parent t).Holds E (Q t parent)) :
    (visitParent recur loc n t pptr).Holds E (P s loc) := by
  unfold visitParent
  split
  · exact hP.prune _ ht (allParents_dropParent _ _ _) fun _ h => goMap_dropParent h _ _
  · rename_i parent hparent
    have hw := hP.wf ht
    exact (hrec parent hw.1 (hw.1.keyed _ _ hparent)
      (hE.succ fuel loc s t pptr parent hs hen hp hw.2 hparent)).imp
      fun u hu => hP.parent hs ht ⟨pptr, hp, hw.2.prefetches _ _ hparent⟩ ⟨_, hparent⟩ hu

/-- What a recursive call of a walk at depth `fuel` must do. -/
def RecurHolds (store : Nat → Block) (E : Abort → Prop) (Enough : Nat → Nat → BlockPrefetcher A → Prop)
    (Q : BlockPrefetcher A → Nat → BlockPrefetcher A → Prop) (fuel : Nat)
    (recur : WalkFn A BlockPointer) : Prop :=
  ∀ t pptr parent, Wf store t → (t.heap parent).req.ptr.id = pptr.id → Enough fuel parent t →
    (recur pptr parent t).Holds E (Q t parent)

/-- The loop of `applyToParentsRecursive`. -/
theorem visitAllParents_holds (hP : LoopRel store P Q) (hE : FuelSpec store E Enough)
    {recur : WalkFn A BlockPointer} {s : BlockPrefetcher A} {loc fuel : Nat} (hs : Wf store s)
    (hen : Enough (fuel + 1) loc s) (hrec : RecurHolds store E Enough Q fuel recur) :
    (visitAllParents recur loc s).Holds E (P s loc) :=
  Except.Holds.foldlM (fun _ b hb ht =>
    Except.Holds.bind (Except.Holds.foldlM (fun t' pptr hp ht' =>
      visitParent_holds hP hE hs hen (List.mem_flatMap.2 ⟨b, hb, hp⟩) ht' (hrec t' pptr)) ht)
      fun _ ht' => hP.dropIfEmpty ht') (hP.refl loc hs)

/-- The loop of `applyToPtrParentsRecursive`. -/
theorem visitPtrParents_holds (hP : LoopRel store P Q) (hE : FuelSpec store E Enough)
    {recur : WalkFn A BlockPointer} {s : BlockPrefetcher A} {loc n fuel : Nat} (hs : Wf store s)
    (hen : Enough (fuel + 1) loc s) (hrec : RecurHolds store E Enough Q fuel recur) :
    (visitPtrParents recur loc n s).Holds E (P s loc) :=
  Except.Holds.bind (Except.Holds.foldlM (fun t pptr hp ht =>
    visitParent_holds hP hE hs hen (bucketOf_subset _ _ hp) ht (hrec t pptr)) (hP.refl loc hs))
    fun _ ht => hP.dropIfEmpty ht

/-- What the function a walk applies must do: from any state the walk reaches, end in
    one it may reach, or fail with `E`. -/
def AppliesHolds (E : Abort → Prop) (Q : BlockPrefetcher A → Nat → BlockPrefetcher A → Prop)
    (key : κ → Nat) (f : WalkFn A κ) : Prop :=
  ∀ s k loc t, Q s loc t → (t.heap loc).req.ptr.id = key k → (f k loc t).Holds E (Q s loc)

/-- The walk through every bucket ends in a state `Q` allows, or fails with `E`. -/
theorem applyToParentsRecursive_holds (hQ : LoopRel store Q Q) (hE : FuelSpec store E Enough)
    {f : WalkFn A Nat} (hf : AppliesHolds E Q id f) :
    ∀ fuel blockID loc (s : BlockPrefetcher A), Wf store s → (s.heap loc).req.ptr.id = blockID →
      Enough fuel loc s → (applyToParentsRecursive f fuel blockID loc s).Holds E (Q s loc)
  | 0, _, loc, s, _, _, hen => hE.zero loc s hen
  | fuel + 1, blockID, loc, s, hs, hk, hen =>
    Except.Holds.bind (visitAllParents_holds hQ hE hs hen fun t pptr parent ht hk' hen' =>
        applyToParentsRecursive_holds hQ hE hf fuel pptr.id parent t ht hk' hen')
      fun t ht => hf s blockID loc t ht (by rw [(hQ.wf ht).2.ptr loc]; exact hk)

/-- The walk along one ref-nonce's bucket ends in a state `Q` allows, or fails with `E`. -/
theorem applyToPtrParentsRecursive_holds (hQ : LoopRel store Q Q) (hE : FuelSpec store E Enough)
    {f : WalkFn A BlockPointer} (hf : AppliesHolds E Q BlockPointer.id f) :
    ∀ fuel ptr loc (s : BlockPrefetcher A), Wf store s → (s.heap loc).req.ptr.id = ptr.id →
      Enough fuel loc s → (applyToPtrParentsRecursive f fuel ptr loc s).Holds E (Q s loc)
  | 0, _, loc, s, _, _, hen => hE.zero loc s hen
  | fuel + 1, ptr, loc, s, hs, hk, hen =>
    Except.Holds.bind (visitPtrParents_holds hQ hE hs hen fun t pptr parent ht hk' hen' =>
        applyToPtrParentsRecursive_holds hQ hE hf fuel pptr parent t ht hk' hen')
      fun t ht => hf s ptr loc t ht (by rw [(hQ.wf ht).2.ptr loc]; exact hk)

/-! ### Two relations a walk keeps -/

/-- Every walk ends well formed and within its start. -/
theorem LoopRel.within :
    LoopRel store (fun s _ (t : BlockPrefetcher A) => Wf store t ∧ t.Within s) fun s _ t =>
      Wf store t ∧ t.Within s where
  wf h := h
  refl _ hs := ⟨hs, .refl _⟩
  prune {_ loc t} g h hg hgo := by
    have hw : (t.modify loc fun pp => { pp with parents := g pp.parents }).Within t :=
      Within.modify rfl hg (hgo _) rfl rfl
    exact ⟨h.1.of_within hw, hw.trans h.2⟩
  parent _ h _ _ h' := ⟨h'.1, h'.2.trans h.2⟩

theorem WalkFn.Keeps.appliesHolds {key : κ → Nat} {f : WalkFn A κ} (hf : f.Keeps store E key) :
    AppliesHolds E (fun s _ (t : BlockPrefetcher A) => Wf store t ∧ t.Within s) key f :=
  fun _ k loc t ht hk => (hf k loc t ht.1 hk).imp fun _ h => ⟨h.1, h.2.trans ht.2⟩

/-- `t` agrees with `s` away from the records on or above `loc`: in the heap entries of
    the other records, and in the map entries of every ID none of them is keyed by. -/
structure FrameAbove (s : BlockPrefetcher A) (loc : Nat) (t : BlockPrefetcher A) : Prop where
  heap : ∀ l, ¬Relation.ReflTransGen (ParentEdge s) loc l → t.heap l = s.heap l
  ids : ∀ i, (∀ l, Relation.ReflTransGen (ParentEdge s) loc l → (s.heap l).req.ptr.id ≠ i) →
    t.prefetches i = s.prefetches i ∧ t.rescheduled i = s.rescheduled i

/-- What a walk from the record at `loc` of `s` may end in: a well-formed state within `s`
    that agrees with `s` away from the records on or above `loc`. -/
def FrameRel (store : Nat → Block) (s : BlockPrefetcher A) (loc : Nat) (t : BlockPrefetcher A) : Prop :=
  (Wf store t ∧ t.Within s) ∧ FrameAbove s loc t

/-- A walk writes only the records on or above the one it starts from, and the entries of
    their IDs. -/
theorem LoopRel.frame : LoopRel store (@FrameRel A store) (FrameRel store) where
  wf h := h.1
  refl _ hs := ⟨⟨hs, .refl _⟩, fun _ _ => rfl, fun _ _ => ⟨rfl, rfl⟩⟩
  prune _ h hg hgo := by
    refine ⟨LoopRel.within.prune _ h.1 hg hgo, fun l hl => ?_, fun i hi => h.2.ids i hi⟩
    have hne : l ≠ _ := fun e => hl (e ▸ .refl)
    simpa [hne] using h.2.heap l hl
  parent {s loc t p u} hs h he hp h' := by
    refine ⟨LoopRel.within.parent hs h.1 he hp h'.1, fun l hl => ?_, fun i hi => ?_⟩
    · have hpl : ¬Relation.ReflTransGen (ParentEdge t) p l := fun hp =>
        hl (.head he (ParentEdge.reflTransGen_of_within h.1.2 hp))
      rw [h'.2.heap l hpl, h.2.heap l hl]
    · have hpi : ∀ l, Relation.ReflTransGen (ParentEdge t) p l → (t.heap l).req.ptr.id ≠ i :=
        fun l hp => by
          rw [h.1.2.ptr l]
          exact hi l (.head he (ParentEdge.reflTransGen_of_within h.1.2 hp))
      rw [(h'.2.ids i hpi).1, (h'.2.ids i hpi).2]
      exact h.2.ids i hi

theorem WalkFn.Keeps.appliesHolds_frame {key : κ → Nat} {f : WalkFn A κ}
    (hf : f.Keeps store E key) (hl : f.IsLocal key) :
    AppliesHolds E (FrameRel store) key f := by
  intro s k loc t ht hk
  have h1 := hf k loc t ht.1.1 hk
  have h2 := hl k loc t
  revert h1 h2
  cases f k loc t with
  | error e => exact fun h _ => h
  | ok t' =>
    intro h1 h2
    refine ⟨⟨h1.1, h1.2.trans ht.1.2⟩, fun l hl' => ?_, fun i hi => ?_⟩
    · rw [h2.heap l fun e => hl' (e ▸ .refl), ht.2.heap l hl']
    · have hne : i ≠ key k := fun e => hi loc .refl (by rw [← ht.1.2.ptr loc, hk, e])
      rw [h2.prefetches i hne, h2.rescheduled i hne]
      exact ht.2.ids i hi

end Walks

/-! ## The functions the walks apply -/

/-- Closing a record after deleting its ID keeps `Wf`: no ID stores it any more. -/
theorem close_deleted_holds {s s' : BlockPrefetcher A} {id loc : Nat} (hs : Wf store s)
    (hk : (s.heap loc).req.ptr.id = id) (hw : s'.Within (s.deletePrefetch id)) :
    (s'.close loc).Holds (· ≠ .stackExhausted) fun t => Wf store t ∧ t.Within s := by
  have hw' := hw.trans (Within.deletePrefetch s id)
  cases h : s'.close loc with
  | error e =>
    unfold BlockPrefetcher.close at h
    split at h <;> cases h
    simp
  | ok t =>
    have hc := Within.close (fun i hi => hs.unstored hk i (hw.prefetches i loc hi)) h
    exact ⟨hs.of_within (hc.trans hw'), hc.trans hw'⟩

theorem completePrefetch_keeps (n : Int) (solo : Nat → Bool) :
    (completePrefetch n solo : WalkFn A Nat).Keeps store (· ≠ .stackExhausted) id := by
  intro k loc t ht hk
  have hw : (t.modify loc fun pp => { pp with subtreeBlockCount := pp.subtreeBlockCount - n }).Within t :=
    Within.modify rfl (List.Subset.refl _) id rfl rfl
  simp only [completePrefetch]
  split
  · simp
  · simp only [Except.Holds.pure_bind]
    split
    · exact ⟨ht.of_within hw, hw⟩
    · refine (close_deleted_holds (ht.of_within hw) (by rw [hw.ptr]; exact hk)
        (((Within.emitIf _ _ _).trans (Within.deleteRescheduled _ _)).trans
          (Within.clearRescheduleState _ _))).imp fun t' h => ⟨h.1, h.2.trans hw⟩

theorem completePrefetch_local (n : Int) (solo : Nat → Bool) :
    (completePrefetch n solo : WalkFn A Nat).IsLocal id := by
  intro k loc t
  simp only [completePrefetch]
  split
  · trivial
  · simp only [Except.Holds.pure_bind]
    split
    · exact Local.modify _ _ _ _
    · exact Local.close_holds ((Local.emitIf _ _ _ _ _).trans <| (Local.deleteRescheduled _ _ _).trans <|
        (Local.clearRescheduleState _ _ _).trans <| (Local.deletePrefetch _ _ _).trans <|
        Local.modify _ _ _ _)

theorem decrementPrefetch_keeps :
    (decrementPrefetch : WalkFn A Nat).Keeps store (· ≠ .stackExhausted) id := by
  intro k loc t ht _
  have hw : (t.modify loc fun pp => { pp with subtreeBlockCount := pp.subtreeBlockCount - 1 }).Within t :=
    Within.modify rfl (List.Subset.refl _) id rfl rfl
  simp only [decrementPrefetch]
  split
  · simp
  · exact ⟨ht.of_within hw, hw⟩

theorem decrementPrefetch_local : (decrementPrefetch : WalkFn A Nat).IsLocal id := by
  intro k loc t
  simp only [decrementPrefetch]
  split
  · trivial
  · exact Local.modify _ _ _ _

theorem addSubtreeBlocks_keeps (n : Int) :
    (addSubtreeBlocks n : WalkFn A Nat).Keeps store (· ≠ .stackExhausted) id := by
  intro k loc t ht _
  have hw : (t.modify loc fun pp => { pp with subtreeBlockCount := pp.subtreeBlockCount + n }).Within t :=
    Within.modify rfl (List.Subset.refl _) id rfl rfl
  exact ⟨ht.of_within hw, hw⟩

theorem addSubtreeBlocks_local (n : Int) : (addSubtreeBlocks n : WalkFn A Nat).IsLocal id :=
  fun _ _ _ => Local.modify _ _ _ _

theorem cancelPrefetch_keeps :
    (cancelPrefetch : WalkFn A BlockPointer).Keeps store (· ≠ .stackExhausted) BlockPointer.id := by
  intro ptr loc t ht hk
  have hw : (t.modify loc fun pp => { pp with parents := dropBucket ptr.refNonce pp.parents }).Within t :=
    Within.modify rfl (allParents_dropBucket _ _) (goMap_dropBucket · _) rfl rfl
  simp only [cancelPrefetch]
  split
  · exact ⟨ht.of_within hw, hw⟩
  · simp only [Except.Holds.pure_bind]
    refine Except.Holds.bind (close_deleted_holds (ht.of_within hw) (by rw [hw.ptr]; exact hk)
      (.refl _)) fun t' h => ?_
    have hc := (Within.deleteRescheduled _ ptr.id).trans (Within.clearRescheduleState t' ptr.id)
    exact ⟨h.1.of_within hc, hc.trans (h.2.trans hw)⟩

theorem cancelPrefetch_local : (cancelPrefetch : WalkFn A BlockPointer).IsLocal BlockPointer.id := by
  intro ptr loc t
  simp only [cancelPrefetch]
  split
  · exact Local.modify _ _ _ _
  · simp only [Except.Holds.pure_bind]
    exact Except.Holds.bind (Local.close_holds ((Local.deletePrefetch _ _ _).trans
      (Local.modify _ _ _ _))) fun _ h =>
        (Local.deleteRescheduled _ _ _).trans ((Local.clearRescheduleState _ _ _).trans h)

theorem rescheduleTopBlock_keeps (stops : Nat → Bool) :
    (rescheduleTopBlock stops : WalkFn A Nat).Keeps store (· ≠ .stackExhausted) id := by
  intro k loc t ht hk
  simp only [rescheduleTopBlock]
  split
  · refine Except.Holds.bind (Except.Holds.foldlM
      (fun t' b _ (h : Wf store t' ∧ t'.Within t) => ?_) ⟨ht, .refl t⟩) fun _ h => h
    exact (cancelPrefetch_keeps _ loc t' h.1 (by rw [h.2.ptr]; exact hk)).imp
      fun t'' h' => ⟨h'.1, h'.2.trans h.2⟩
  · simp only [Except.Holds.pure_bind]
    refine Except.Holds.bind (close_deleted_holds ht hk (.refl _)) fun t' h => ?_
    have hr : ∀ rp, (t'.setRescheduled k rp).Within t := fun rp => (Within.setRescheduled _ _ _).trans h.2
    split
    · exact ⟨ht.of_within (hr _), hr _⟩
    · simp only [Except.Holds.pure_bind]
      split <;> exact ⟨ht.of_within (hr _), hr _⟩

theorem rescheduleTopBlock_local (stops : Nat → Bool) :
    (rescheduleTopBlock stops : WalkFn A Nat).IsLocal id := by
  intro k loc t
  simp only [rescheduleTopBlock]
  split
  · exact Except.Holds.bind (Except.Holds.foldlM (fun t' b _ (h : t'.Local t loc k) =>
      (cancelPrefetch_local ⟨k, b.1⟩ loc t').imp fun _ h' => h'.trans h) (.refl t loc k)) fun _ h => h
  · simp only [Except.Holds.pure_bind]
    refine Except.Holds.bind (Local.close_holds (Local.deletePrefetch _ _ _)) fun t' h => ?_
    split
    · exact (Local.setRescheduled _ _ _ _).trans h
    · simp only [Except.Holds.pure_bind]
      split <;> exact (Local.setRescheduled _ _ _ _).trans h

end KbfsPrefetcher
