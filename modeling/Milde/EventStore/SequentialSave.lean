/-
  Milde.EventStore.SequentialSave

  `SaveAggregate` run to its end with nothing else going on: the four stages of
  EventStore/EventStore/EventStore.cs in one function, and `EventBus.Publish` as its
  loop.  `fails` says which of the calls throw; such a call has no effect.

  `saveAggregate_run` is the connection to the processes: what it computes is what
  some run of the steps `save` and `complete` of one object does to the store and to
  that object.
-/
import Milde.EventStore.Processes

namespace Milde.EventStore

open Milde.EventSourcing

variable {Id S P : Type}

/-- The calls to the event store, the event bus and Redis that a save makes. -/
inductive SaveCall where
  | category
  | aggregate
  | ids
  | bus (eventType : ClrType)
  | redis
deriving DecidableEq, Repr

/-- The `foreach` of `EventBus.Publish`. -/
def publish (fails : SaveCall → Bool) :
    Store Id P → List (ClrType × List (AggregateEvent Id P)) → Outcome (Store Id P)
  | s, [] => .returned s
  | s, (eventType, events) :: rest =>
      if fails (.bus eventType) then .threw s
      else publish fails (s.appendTyped (getStream eventType) events) rest

/-- `EventStore.SaveAggregate`. -/
def saveAggregate [DecidableEq Id] (T : String) (drop : Bool) (fails : SaveCall → Bool)
    (s : Store Id P) (a : Aggregate Id S P) : Outcome (Store Id P × Aggregate Id S P) :=
  let changes := a.getUncommitedChanges
  if fails .category then .threw (s, a)
  else
    let s := s.appendTyped T changes
    if fails .aggregate then .threw (s, a)
    else
      match saveEvents (s.aggregate a.id) changes (expectedVersion a changes) with
      | none => .threw (s, a)
      | some stream =>
          let s := s.setAggregate a.id stream
          if fails .ids then .threw (s, a)
          else
            match publish fails (s.appendId drop a.id) (eventsByType changes) with
            | .returned s => .returned (s, a.markAsCommited)
            | .threw s => .threw (s, a)

/-- A call after the append to `T-{id}` throws. -/
def LateFailure (fails : SaveCall → Bool) (changes : List (AggregateEvent Id P)) : Prop :=
  fails .ids = true ∨ ∃ g ∈ eventsByType changes, fails (.bus g.1) = true

-- ============================================================================
-- How a save ends
-- ============================================================================

section Ends

variable (fails : SaveCall → Bool)

/-- Publishing touches the streams of the event bus only, and it throws iff one of its
    appends does. -/
theorem publish_spec (s : Store Id P) (groups : List (ClrType × List (AggregateEvent Id P))) :
    ∃ s', s'.aggregate = s.aggregate ∧ s'.ids = s.ids ∧
      ((publish fails s groups = .returned s' ∧ ∀ g ∈ groups, fails (.bus g.1) = false) ∨
        (publish fails s groups = .threw s' ∧ ∃ g ∈ groups, fails (.bus g.1) = true)) := by
  induction groups generalizing s with
  | nil => exact ⟨s, rfl, rfl, Or.inl ⟨rfl, fun _ hg => absurd hg List.not_mem_nil⟩⟩
  | cons g rest ih =>
      by_cases hg : fails (.bus g.1) = true
      · refine ⟨s, rfl, rfl, Or.inr ⟨?_, g, List.mem_cons_self, hg⟩⟩
        rw [publish, if_pos hg]
      · obtain ⟨s', haggregate, hids, h⟩ := ih (s.appendTyped (getStream g.1) g.2)
        refine ⟨s', haggregate, hids, ?_⟩
        rw [publish, if_neg hg]
        rcases h with ⟨h, hrest⟩ | ⟨h, g', hg', hfail⟩
        · refine Or.inl ⟨h, fun g' hg' => ?_⟩
          rcases List.mem_cons.mp hg' with rfl | hg'
          · simpa using hg
          · exact hrest g' hg'
        · exact Or.inr ⟨h, g', List.mem_cons_of_mem g hg', hfail⟩

variable [DecidableEq Id]

/-- **How a save ends.** Either its events do not reach `T-{id}`: it throws and no
    aggregate stream changes; or they do, and the object is marked as committed iff
    nothing throws later. -/
theorem saveAggregate_cases (T : String) (drop : Bool) (s : Store Id P) (a : Aggregate Id S P) :
    (∃ s', saveAggregate T drop fails s a = .threw (s', a) ∧ s'.aggregate = s.aggregate ∧
      (fails .category = true ∨ fails .aggregate = true ∨
        saveEvents (s.aggregate a.id) a.changes (expectedVersion a a.changes) = none)) ∨
    (∃ s', fails .category = false ∧ fails .aggregate = false ∧
      saveEvents (s.aggregate a.id) a.changes (expectedVersion a a.changes) =
        some (s.aggregate a.id ++ a.changes) ∧
      s'.aggregate = Function.update s.aggregate a.id (s.aggregate a.id ++ a.changes) ∧
      ((saveAggregate T drop fails s a = .threw (s', a) ∧ LateFailure fails a.changes) ∨
        (saveAggregate T drop fails s a = .returned (s', a.markAsCommited) ∧
          ¬ LateFailure fails a.changes))) := by
  by_cases hcategory : fails .category = true
  · exact Or.inl ⟨s, by simp [saveAggregate, hcategory], rfl, Or.inl hcategory⟩
  by_cases haggregate : fails .aggregate = true
  · refine Or.inl ⟨s.appendTyped T a.changes, ?_, rfl, Or.inr (Or.inl haggregate)⟩
    simp [saveAggregate, hcategory, haggregate, Aggregate.getUncommitedChanges]
  cases hsave : saveEvents (s.aggregate a.id) a.changes (expectedVersion a a.changes) with
  | none =>
      refine Or.inl ⟨s.appendTyped T a.changes, ?_, rfl, Or.inr (Or.inr rfl)⟩
      simp only [saveAggregate, if_neg hcategory, if_neg haggregate]
      simp only [Aggregate.getUncommitedChanges, Store.appendTyped_aggregate, hsave]
  | some stream =>
      obtain rfl := saveEvents_eq_some hsave
      simp only [Bool.not_eq_true] at hcategory haggregate
      by_cases hids : fails .ids = true
      · refine Or.inr ⟨(s.appendTyped T a.changes).setAggregate a.id _, hcategory, haggregate, rfl,
          rfl, Or.inl ⟨?_, Or.inl hids⟩⟩
        simp [saveAggregate, hcategory, haggregate, Aggregate.getUncommitedChanges, hsave, hids]
      · obtain ⟨s', hagg, -, h⟩ := publish_spec fails
          (((s.appendTyped T a.changes).setAggregate a.id
            (s.aggregate a.id ++ a.changes)).appendId drop a.id) (eventsByType a.changes)
        rw [Store.appendId_aggregate] at hagg
        refine Or.inr ⟨s', hcategory, haggregate, rfl, hagg, ?_⟩
        rcases h with ⟨h, hbus⟩ | ⟨h, hbus⟩
        · right
          refine ⟨?_, ?_⟩
          · simp [saveAggregate, hcategory, haggregate, Aggregate.getUncommitedChanges, hsave,
              hids, h]
          · rintro (hlate | ⟨g, hg, hlate⟩)
            · exact hids hlate
            · rw [hbus g hg] at hlate
              cases hlate
        · left
          refine ⟨?_, Or.inr hbus⟩
          simp [saveAggregate, hcategory, haggregate, Aggregate.getUncommitedChanges, hsave,
            hids, h]

end Ends

-- ============================================================================
-- A save as steps of the processes
-- ============================================================================

section Steps

variable [DecidableEq Id] {d : Domain Id S P} {T : String} {w : World Id S P} {o : Nat}
  {a : Aggregate Id S P} {views : List (View S)}

/-- A run that ends with an idle object at `o` and the given store, all other objects
    as they were. -/
def EndsIdle (d : Domain Id S P) (T : String) (w : World Id S P) (o : Nat)
    (ls : List (Label Id P)) (store : Store Id P) (a : Aggregate Id S P) : Prop :=
  ∃ w' views, Transition.run (step d T) w ls = some w' ∧ w'.store = store ∧
    w'.objects = w.objects.set o ⟨a, none, views⟩

theorem step_complete {call : Awaiting Id P} (ho : w.objects[o]? = some ⟨a, some call, views⟩)
    (fault : Fault) (drop : Bool) :
    step d T w (.complete o fault drop) =
      some (w.completeCall T o ⟨a, some call, views⟩ call fault drop) := by
  simp only [step, ho]

/-- The call at which the save throws. -/
theorem endsIdle_fails {call : Awaiting Id P}
    (ho : w.objects[o]? = some ⟨a, some call, views⟩) :
    ∃ ls, EndsIdle d T w o ls w.store a :=
  ⟨_, _, views, Transition.run_single (step_complete ho .noEffect false), rfl, rfl⟩

/-- A refused append ends the save as well. -/
theorem endsIdle_refused {call : Awaiting Id P}
    (ho : w.objects[o]? = some ⟨a, some call, views⟩)
    (hr : resume T false w.store a call = none) : ∃ ls, EndsIdle d T w o ls w.store a := by
  refine ⟨_, _, views, Transition.run_single (step_complete ho .none false), ?_, ?_⟩ <;>
    simp [World.completeCall, hr, World.setObject]

/-- A call that succeeds, and what follows it. -/
theorem endsIdle_resumed {call : Awaiting Id P} (drop : Bool) {s store : Store Id P}
    {a' agg : Aggregate Id S P} {next : Option (Awaiting Id P)}
    (ho : w.objects[o]? = some ⟨a, some call, views⟩)
    (hr : resume T drop w.store a call = some (s, a', next))
    (h : ∀ w₁ : World Id S P, w₁.store = s →
      (∃ views', w₁.objects[o]? = some ⟨a', next, views'⟩) → ∃ ls, EndsIdle d T w₁ o ls store agg) :
    ∃ ls, EndsIdle d T w o ls store agg := by
  have hcomplete := step_complete (d := d) (T := T) ho .none drop
  have hlt := (List.getElem?_eq_some_iff.mp ho).1
  simp only [World.completeCall, hr] at hcomplete
  obtain ⟨ls, w', views', hrun, hstore, hobjects⟩ :=
    h ⟨s, w.objects.set o ⟨a', next, if next.isNone then [] else views⟩,
      w.commitLog ⟨a, some call, views⟩ call⟩ rfl ⟨_, List.getElem?_set_self hlt⟩
  refine ⟨_ :: ls, w', views', Transition.run_cons_eq_some.mpr ⟨_, hcomplete, hrun⟩, hstore, ?_⟩
  rw [hobjects, List.set_set]

/-- The loop of `EventBus.Publish`, from its head on. -/
theorem publish_run (fails : SaveCall → Bool) (groups : List (ClrType × List (AggregateEvent Id P)))
    (ho : ∃ views, w.objects[o]? =
      some ⟨(publishNext a groups).1, (publishNext a groups).2, views⟩) :
    ∃ ls, EndsIdle d T w o ls (publish fails w.store groups).object
      (match publish fails w.store groups with
        | .returned _ => a.markAsCommited
        | .threw _ => a) := by
  obtain ⟨views, ho⟩ := ho
  induction groups generalizing w views with
  | nil => exact ⟨[], w, views, rfl, rfl, (objects_set_self ho).symm⟩
  | cons g rest ih =>
      by_cases hg : fails (.bus g.1) = true
      · rw [publish, if_pos hg]
        exact endsIdle_fails ho
      · rw [publish, if_neg hg]
        apply endsIdle_resumed false ho rfl
        rintro w₁ hstore ⟨views', ho'⟩
        rw [← hstore]
        exact ih views' ho'

/-- **A sequential save is a run of the processes.** -/
theorem saveAggregate_run (ho : w.objects[o]? = some ⟨a, none, views⟩) (drop : Bool)
    (fails : SaveCall → Bool) :
    ∃ ls, EndsIdle d T w o (.save o :: ls) (saveAggregate T drop fails w.store a).object.1
      (saveAggregate T drop fails w.store a).object.2 := by
  have hlt := (List.getElem?_eq_some_iff.mp ho).1
  -- the run after the step `save`
  suffices h : ∀ w₁ : World Id S P, w₁.store = w.store →
      (∃ views', w₁.objects[o]? = some ⟨a, some (beginSave a), views'⟩) →
      ∃ ls, EndsIdle d T w₁ o ls (saveAggregate T drop fails w.store a).object.1
        (saveAggregate T drop fails w.store a).object.2 by
    have hsave : step d T w (.save o) = some (w.setObject o ⟨a, some (beginSave a), views⟩) := by
      simp only [step, ho]
    obtain ⟨ls, w', views', hrun, hstore, hobjects⟩ :=
      h (w.setObject o ⟨a, some (beginSave a), views⟩) rfl ⟨views, List.getElem?_set_self hlt⟩
    refine ⟨ls, w', views', Transition.run_cons_eq_some.mpr ⟨_, hsave, hrun⟩, hstore, ?_⟩
    rw [hobjects, World.setObject, List.set_set]
  rintro w₁ hstore₁ ⟨views₁, ho₁⟩
  rw [← hstore₁]
  by_cases hcategory : fails .category = true
  · simp only [saveAggregate, if_pos hcategory]
    exact endsIdle_fails ho₁
  simp only [saveAggregate, if_neg hcategory]
  apply endsIdle_resumed drop ho₁ rfl
  rintro w₂ hstore₂ ⟨views₂, ho₂⟩
  rw [← hstore₂]
  by_cases haggregate : fails .aggregate = true
  · simp only [if_pos haggregate]
    exact endsIdle_fails ho₂
  simp only [if_neg haggregate]
  generalize hversion : expectedVersion a a.getUncommitedChanges = version at ho₂ ⊢
  cases hsave : saveEvents (w₂.store.aggregate a.id) a.getUncommitedChanges version with
  | none =>
      have hr : resume T false w₂.store a (.aggregate a.getUncommitedChanges version) = none := by
        simp only [resume, hsave, Option.map_none]
      exact endsIdle_refused ho₂ hr
  | some stream =>
      have hr : resume T drop w₂.store a (.aggregate a.getUncommitedChanges version) =
          some (w₂.store.setAggregate a.id stream, a, some .ids) := by
        simp only [resume, hsave, Option.map_some]
      apply endsIdle_resumed drop ho₂ hr
      rintro w₃ hstore₃ ⟨views₃, ho₃⟩
      dsimp only
      rw [← hstore₃]
      by_cases hids : fails .ids = true
      · simp only [if_pos hids]
        exact endsIdle_fails ho₃
      simp only [if_neg hids]
      apply endsIdle_resumed drop ho₃ rfl
      rintro w₄ hstore₄ ho₄
      rw [← hstore₄]
      obtain ⟨ls, h⟩ := publish_run (d := d) (T := T) fails _ ho₄
      refine ⟨ls, ?_⟩
      cases hpub : publish fails w₄.store (eventsByType a.getUncommitedChanges) with
      | returned s' =>
          rw [hpub] at h
          exact h
      | threw s' =>
          rw [hpub] at h
          exact h

end Steps

end Milde.EventStore
