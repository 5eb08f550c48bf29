/-
  Milde.EventStore.SequentialRuns

  The stores that successful saves, one after another, can build up.

  A run uses objects as the processes do (`use`) and saves them (`save`), each save from
  its first call to its last without a failure and without another in between.  The
  invariant (`Tidy`) relates the three streams: `T-Ids` lists every aggregate with an
  event, and `T` holds of each aggregate what `T-{id}` holds, plus one more copy of the
  events whose class shares its simple name with the aggregate class.
-/
import Milde.EventStore.CategoryStream
import Milde.EventStore.SequentialSave

namespace Milde.EventStore

open Milde.EventSourcing

variable {Id S P : Type}

/-- The label is not part of a save. -/
def Label.isUse : Label Id P → Bool
  | .save _ => false
  | .complete _ _ _ => false
  | _ => true

inductive SequentialLabel (Id P : Type) where
  | use (l : Label Id P)
  | save (o : Nat) (drop : Bool)
deriving DecidableEq, Repr

def noFailure : SaveCall → Bool := fun _ => false

variable [DecidableEq Id]

/-- One step: a use of the objects, or a whole save that returns. -/
def sequentialStep (d : Domain Id S P) (T : String) (w : World Id S P) :
    SequentialLabel Id P → Option (World Id S P)
  | .use l => if l.isUse then step d T w l else none
  | .save o drop =>
      match w.objects[o]? with
      | some ⟨a, none, _⟩ =>
          match saveAggregate T drop noFailure w.store a with
          | .returned (store, a) => some { w with
              store
              objects := w.objects.set o ⟨a, none, []⟩ }
          | .threw _ => none
      | _ => none

-- ============================================================================
-- What a save writes to `T` and `T-Ids`
-- ============================================================================

/-- The events that the event bus appends to a stream called `T`. -/
def publishedTo (T : String) (changes : List (AggregateEvent Id P)) :
    List (AggregateEvent Id P) :=
  ((eventsByType changes).filter fun g => getStream g.1 = T).flatMap Prod.snd

omit [DecidableEq Id] in
theorem mem_publishedTo {T : String} {changes : List (AggregateEvent Id P)}
    {e : AggregateEvent Id P} :
    e ∈ publishedTo T changes ↔ e ∈ changes ∧ getStream e.type = T := by
  simp only [publishedTo, List.mem_flatMap, List.mem_filter, decide_eq_true_eq, eventsByType]
  refine ⟨?_, ?_⟩
  · rintro ⟨⟨t, g⟩, ⟨hg, ht⟩, he⟩
    obtain ⟨hmem, htype⟩ := (group_spec hg).2 e he
    exact ⟨hmem, by rw [htype]; exact ht⟩
  · rintro ⟨he, ht⟩
    refine ⟨(e.type, changes.filter fun e' => e'.type = e.type), ⟨?_, ht⟩, by simp [he]⟩
    exact mem_groupBy.mpr ⟨⟨e, he, rfl⟩, rfl⟩

omit [DecidableEq Id] in
theorem publish_typed {fails : SaveCall → Bool} (T : String) {s s' : Store Id P}
    {groups : List (ClrType × List (AggregateEvent Id P))}
    (h : publish fails s groups = .returned s') :
    s'.typed T =
      s.typed T ++ (groups.filter fun g => getStream g.1 = T).flatMap Prod.snd := by
  induction groups generalizing s with
  | nil =>
      cases h
      simp
  | cons g rest ih =>
      rw [publish] at h
      split at h
      · cases h
      · rw [ih h]
        by_cases hname : getStream g.1 = T
        · simp [hname]
        · rw [Store.appendTyped_typed_ne s (Ne.symm hname)]
          simp [hname]

/-- What a save that returns has written. -/
theorem saveAggregate_returned {T : String} {drop : Bool} {fails : SaveCall → Bool}
    {s s' : Store Id P} {a a' : Aggregate Id S P}
    (h : saveAggregate T drop fails s a = .returned (s', a')) :
    a' = a.markAsCommited ∧
      s'.aggregate = Function.update s.aggregate a.id (s.aggregate a.id ++ a.changes) ∧
      (∀ id, id ∈ s'.ids ↔ id ∈ s.ids ∨ id = a.id) ∧
      ∀ name, s'.typed name =
        (s.appendTyped T a.changes).typed name ++ publishedTo name a.changes := by
  simp only [saveAggregate, Aggregate.getUncommitedChanges] at h
  split at h
  · cases h
  split at h
  · cases h
  split at h
  · cases h
  rename_i stream hsave
  obtain rfl := saveEvents_eq_some hsave
  split at h
  · cases h
  split at h
  · rename_i s₁ hpub
    cases h
    obtain ⟨s₂, hagg, hids, ⟨hpub', -⟩ | ⟨hpub', -⟩⟩ := publish_spec fails
      (((s.appendTyped T a.changes).setAggregate a.id
        (s.aggregate a.id ++ a.changes)).appendId drop a.id) (eventsByType a.changes)
    · obtain rfl : s' = s₂ := Outcome.returned.inj (hpub.symm.trans hpub')
      refine ⟨rfl, by rw [hagg, Store.appendId_aggregate]; rfl, fun id => ?_, fun name => ?_⟩
      · rw [hids, Store.mem_appendId_ids]
        rfl
      · rw [publish_typed name hpub, Store.appendId_typed, Store.setAggregate_typed]
        rfl
    · exact absurd (hpub.symm.trans hpub') (by simp)
  · cases h

-- ============================================================================
-- The invariant
-- ============================================================================

/-- What `T` holds of an aggregate, against its stream. -/
structure InCategory (T : String) (stream category : List (AggregateEvent Id P)) : Prop where
  known : category ⊆ stream
  exact : (∀ e ∈ stream, getStream e.type ≠ T) → category = stream
  doubled : (∃ e ∈ stream, getStream e.type = T) → stream.length < category.length

structure Tidy (d : TotalDomain Id S P) (T : String) (w : World Id S P) : Prop where
  inv : Inv d w
  listed : ∀ id, w.store.aggregate id ≠ [] → id ∈ w.store.ids
  category : ∀ id, InCategory T (w.store.aggregate id) (eventsOf id (w.store.typed T))

omit [DecidableEq Id] in
/-- A save appends its batch to both streams, and to `T` what the bus publishes there. -/
theorem InCategory.append {T : String} {stream category : List (AggregateEvent Id P)}
    (h : InCategory T stream category) (changes : List (AggregateEvent Id P)) :
    InCategory T (stream ++ changes) (category ++ (changes ++ publishedTo T changes)) where
  known := by
    intro e he
    rcases List.mem_append.mp he with he | he
    · exact List.mem_append_left _ (h.known he)
    · rcases List.mem_append.mp he with he | he
      · exact List.mem_append_right _ he
      · exact List.mem_append_right _ (mem_publishedTo.mp he).1
  exact := by
    intro hall
    have hnone : publishedTo T changes = [] := by
      apply List.eq_nil_iff_forall_not_mem.mpr
      intro e he
      obtain ⟨hmem, hname⟩ := mem_publishedTo.mp he
      exact hall e (List.mem_append_right _ hmem) hname
    rw [h.exact fun e he => hall e (List.mem_append_left _ he), hnone, List.append_nil]
  doubled := by
    rintro ⟨e, he, hname⟩
    simp only [List.length_append]
    by_cases hold : ∃ e ∈ stream, getStream e.type = T
    · have := h.doubled hold
      omega
    · -- the first event of that name comes with this batch
      have heq : category = stream := h.exact fun e he hn => hold ⟨e, he, hn⟩
      have hnew : e ∈ publishedTo T changes := by
        refine mem_publishedTo.mpr ⟨?_, hname⟩
        rcases List.mem_append.mp he with he | he
        · exact absurd ⟨e, he, hname⟩ hold
        · exact he
      have := List.length_pos_of_mem hnew
      rw [heq]
      omega

section Runs

variable {d : TotalDomain Id S P} {T : String} {w w' : World Id S P}

/-- What a step of a sequential run does. -/
theorem sequentialStep_cases {l : SequentialLabel Id P}
    (h : sequentialStep d.domain T w l = some w') :
    (∃ l', l = .use l' ∧ l'.isUse = true ∧ step d.domain T w l' = some w') ∨
    (∃ o drop a views s a', l = .save o drop ∧ w.objects[o]? = some ⟨a, none, views⟩ ∧
      saveAggregate T drop noFailure w.store a = .returned (s, a') ∧
      w' = { w with store := s, objects := w.objects.set o ⟨a', none, []⟩ }) := by
  cases l with
  | use l =>
      simp only [sequentialStep] at h
      split at h
      · exact Or.inl ⟨l, rfl, ‹_›, h⟩
      · cases h
  | save o drop =>
      simp only [sequentialStep] at h
      split at h
      · rename_i a views ho
        split at h
        · rename_i s a' hsave
          exact Or.inr ⟨o, drop, a, views, s, a', rfl, ho, hsave, (Option.some.inj h).symm⟩
        · cases h
      · cases h

/-- A use of the objects leaves the store alone. -/
theorem step_use_store {l : Label Id P} (hl : l.isUse = true)
    (h : step d.domain T w l = some w') : w'.store = w.store := by
  rcases step_cases h with ⟨_, _, -, rfl⟩ | ⟨_, _, _, _, -, -, rfl⟩ |
    ⟨_, _, _, _, _, _, -, -, -, rfl⟩ | ⟨_, _, _, _, -, -, rfl⟩ |
    ⟨_, _, _, _, _, -, -, ⟨_, -, rfl⟩ | ⟨_, -, rfl⟩⟩ | ⟨_, _, _, rfl, -, -⟩ |
    ⟨_, _, _, _, _, _, rfl, -, -⟩
  all_goals first | rfl | cases hl

/-- A whole save is a run of the processes, so it keeps their invariant. -/
theorem Inv.saved (h : Inv d w) {o : Nat} {drop : Bool} {a a' : Aggregate Id S P}
    {views : List (View S)} {s : Store Id P} (hshort : Short T s)
    (ho : w.objects[o]? = some ⟨a, none, views⟩)
    (hsave : saveAggregate T drop noFailure w.store a = .returned (s, a')) :
    Extends w.store s ∧
      Inv d { w with store := s, objects := w.objects.set o ⟨a', none, []⟩ } := by
  obtain ⟨ls, v, views', hrun, hstore, hobjects⟩ :=
    saveAggregate_run (d := d.domain) ho drop noFailure (T := T)
  rw [hsave] at hstore hobjects
  obtain rfl : v.store = s := hstore
  have hext := run_extends hrun
  have hinv := inv_run (along_short hrun hshort) h hrun
  refine ⟨hext, hinv.streams, ?_, fun c hc => (h.commits c hc).mono hext⟩
  intro obj hobj
  rcases List.mem_or_eq_of_mem_set hobj with hmem | rfl
  · obtain ⟨sk, loaded, ht⟩ := h.objects obj hmem
    exact ⟨sk, loaded, ht.mono hext⟩
  · have hmem : (⟨a', none, views'⟩ : Obj Id S P) ∈ v.objects := by
      rw [hobjects]
      exact List.mem_set (List.getElem?_eq_some_iff.mp ho).1 _
    obtain ⟨sk, loaded, ht⟩ := hinv.objects _ hmem
    refine ⟨sk, loaded, ht.object, ht.history, ht.seen, ?_, ht.saving⟩
    obtain ⟨rfl, -⟩ := saveAggregate_returned hsave
    rfl

theorem sequentialStep_extends {l : SequentialLabel Id P}
    (h : sequentialStep d.domain T w l = some w') : Extends w.store w'.store := by
  rcases sequentialStep_cases h with
    ⟨l', rfl, -, hstep⟩ | ⟨o, drop, a, views, s, a', rfl, ho, hsave, rfl⟩
  · exact step_extends hstep
  · obtain ⟨ls, v, views', hrun, hstore, -⟩ :=
      saveAggregate_run (d := d.domain) ho drop noFailure (T := T)
    rw [hsave] at hstore
    obtain rfl : v.store = s := hstore
    have hext := run_extends hrun
    exact hext

/-- Every step keeps the three streams in step. -/
theorem Tidy.step (h : Tidy d T w) {l : SequentialLabel Id P}
    (hstep : sequentialStep d.domain T w l = some w') (hshort : Short T w'.store) :
    Tidy d T w' := by
  have hshort' := hshort.of_extends (sequentialStep_extends hstep)
  rcases sequentialStep_cases hstep with ⟨l', rfl, huse, hstep⟩ |
    ⟨o, drop, a, views, s, a', rfl, ho, hsave, rfl⟩
  · have hstore := step_use_store huse hstep
    refine ⟨h.inv.step hshort' hstep, ?_, ?_⟩
    · rw [hstore]
      exact h.listed
    · rw [hstore]
      exact h.category
  · obtain ⟨-, hinv⟩ := h.inv.saved hshort ho hsave
    obtain ⟨sk, loaded, ht⟩ := h.inv.objects _ (List.mem_of_getElem? ho)
    obtain ⟨-, hagg, hids, htyped⟩ := saveAggregate_returned hsave
    have hown : ∀ e ∈ a.changes ++ publishedTo T a.changes, e.aggregateId = a.id := by
      intro e he
      have hmem : e ∈ a.changes := by
        rcases List.mem_append.mp he with he | he
        · exact he
        · exact (mem_publishedTo.mp he).1
      exact ht.history.own e (List.mem_append_right loaded hmem)
    refine ⟨hinv, fun id hne => ?_, fun id => ?_⟩
    · rw [hids]
      by_cases hid : id = a.id
      · exact Or.inr hid
      · rw [hagg, Function.update_of_ne hid] at hne
        exact Or.inl (h.listed id hne)
    · show InCategory T (s.aggregate id) (eventsOf id (s.typed T))
      rw [hagg, htyped, Store.appendTyped_typed_self, List.append_assoc, eventsOf_append]
      by_cases hid : id = a.id
      · subst hid
        rw [Function.update_self, eventsOf_own hown]
        exact (h.category a.id).append a.changes
      · rw [Function.update_of_ne hid, eventsOf_foreign hown hid, List.append_nil]
        exact h.category id

theorem tidy_init : Tidy d T (World.init : World Id S P) where
  inv := inv_init
  listed _ hne := absurd rfl hne
  category _ :=
    { known := List.Subset.refl _
      exact := fun _ => rfl
      doubled := by
        rintro ⟨e, he, -⟩
        cases he }

/-- The three streams are in step after any sequence of successful saves. -/
theorem tidy_reachable (h : Transition.Reachable (sequentialStep d.domain T) World.init w)
    (hshort : Short T w.store) : Tidy d T w := by
  have hall : Short T w.store → Tidy d T w := by
    refine h.invariant (I := fun w => Short T w.store → Tidy d T w) (fun _ => tidy_init) ?_
    intro w l w' hw hstep hshort
    exact (hw (hshort.of_extends (sequentialStep_extends hstep))).step hstep hshort
  exact hall hshort

end Runs

end Milde.EventStore
