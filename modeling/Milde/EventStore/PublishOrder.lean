/-
  Milde.EventStore.PublishOrder

  The streams that bus subscribers read against the aggregate streams.

  `SaveAggregate` stores its batch in `T-{id}` and, after two more awaits, publishes it
  (`EventBus.Publish`), a group for each event class.  Between the two another process can
  load the aggregate, save the next events and publish them first, so the order in the
  stream of an event class is that of `T-{id}` only while the saves of an aggregate take
  turns (`inOrder_iff`).

  The invariant (`Placed`) says where the stored events are: each of them is in the stream
  of its class or waits to be published by exactly one running save.
-/
import Milde.EventStore.Acceptance
import Milde.EventStore.CategoryStream

namespace Milde.EventStore

open Milde.EventSourcing

variable {Id S P : Type}

-- ============================================================================
-- Saves in turn
-- ============================================================================

/-- The events that a save has stored in `T-{id}` and has still to publish. -/
def Obj.unpublished (obj : Obj Id S P) : List (AggregateEvent Id P) :=
  match obj.saving with
  | some .ids => obj.agg.getUncommitedChanges
  | some (.bus _ events rest) => events ++ rest.flatMap Prod.snd
  | _ => []

def World.unpublishedAt (w : World Id S P) (o : Nat) : List (AggregateEvent Id P) :=
  match w.objects[o]? with
  | some obj => obj.unpublished
  | none => []

/-- The events of one class. -/
def eventsOfType (E : ClrType) (events : List (AggregateEvent Id P)) :
    List (AggregateEvent Id P) :=
  events.filter fun e => decide (e.type = E)

/-- In the stream of every event class, the events of an aggregate are a beginning of
    those of the class in its own stream. -/
def InOrder [DecidableEq Id] (types : Set ClrType) (w : World Id S P) : Prop :=
  ∀ E ∈ types, ∀ id, eventsOf id (w.store.typed (getStream E)) <+:
    eventsOfType E (w.store.aggregate id)

/-- The store call that the step ends succeeds. -/
def succeeds [DecidableEq Id] (T : String) (w : World Id S P) : Label Id P → Bool
  | .complete o fault drop => decide (fault = .none) &&
      match w.objects[o]? with
      | some ⟨a, some call, _⟩ => (resume T drop w.store a call).isSome
      | _ => true
  | _ => true

/-- The object at `o` publishes events of its aggregate while no other save has an earlier
    event of the class still to publish, and nothing else enters the stream of a class. -/
def Awaiting.InTurn (types : Set ClrType) (T : String) (w : World Id S P) (o : Nat) :
    Awaiting Id P → Prop
  | .category events => events = [] ∨ ∀ E ∈ types, getStream E ≠ T
  | .bus eventType events _ => (∀ E ∈ types, getStream E = getStream eventType → E = eventType) ∧
      (eventType ∈ types → ∀ o' ≠ o, ∀ e' ∈ w.unpublishedAt o', e'.type = eventType →
        ∀ e ∈ events, e'.aggregateId = e.aggregateId → e.version < e'.version)
  | _ => True

def InTurn (types : Set ClrType) (T : String) (w : World Id S P) : Label Id P → Prop
  | .complete o _ _ => ∀ a call views, w.objects[o]? = some ⟨a, some call, views⟩ →
      call.InTurn types T w o
  | _ => True

-- ============================================================================
-- Where the stored events are
-- ============================================================================

/-- Every stored event is in the stream of its class or still to be published, once;
    `unpublished` is what each object has still to publish. -/
structure Placed [DecidableEq Id] (types : Set ClrType) (s : Store Id P)
    (unpublished : Nat → List (AggregateEvent Id P)) : Prop where
  published : ∀ E ∈ types, ∀ id, eventsOf id (s.typed (getStream E)) <+:
    eventsOfType E (s.aggregate id)
  stored : ∀ o, ∀ e ∈ unpublished o, e ∈ s.aggregate e.aggregateId
  covered : ∀ id, ∀ e ∈ s.aggregate id, e.type ∈ types →
    e ∈ s.typed (getStream e.type) ∨ ∃ o, e ∈ unpublished o
  apart : ∀ o, ∀ e ∈ unpublished o, e.type ∈ types → e ∉ s.typed (getStream e.type)
  once : ∀ o o' e, e ∈ unpublished o → e ∈ unpublished o' → o = o'

section Placed

variable [DecidableEq Id] {types : Set ClrType} {s : Store Id P}
  {u : Nat → List (AggregateEvent Id P)} {o : Nat} {id : Id} {E : ClrType}
  {events : List (AggregateEvent Id P)} {e : AggregateEvent Id P}

omit [DecidableEq Id] in
theorem mem_eventsOfType : e ∈ eventsOfType E events ↔ e ∈ events ∧ e.type = E := by
  rw [eventsOfType, List.mem_filter, decide_eq_true_eq]

theorem mem_eventsOf : e ∈ eventsOf id events ↔ e ∈ events ∧ e.aggregateId = id := by
  rw [eventsOf, List.mem_filter, decide_eq_true_eq]

/-- What is in the stream of a class is stored. -/
theorem Placed.mem_aggregate (h : Placed types s u) (hE : e.type ∈ types)
    (he : e ∈ s.typed (getStream e.type)) : e ∈ s.aggregate e.aggregateId :=
  (mem_eventsOfType.mp ((h.published e.type hE e.aggregateId).subset
    (mem_eventsOf.mpr ⟨he, rfl⟩))).1

/-- A batch is stored, and its save has it to publish. -/
theorem Placed.store (h : Placed types s u) (hnone : u o = [])
    (hown : ∀ e ∈ events, e.aggregateId = id) (hnew : ∀ e ∈ events, e ∉ s.aggregate id) :
    Placed types (s.setAggregate id (s.aggregate id ++ events)) (Function.update u o events) := by
  have hmem : ∀ id', s.aggregate id' <+:
      (s.setAggregate id (s.aggregate id ++ events)).aggregate id' := by
    intro id'
    by_cases hid : id' = id
    · subst hid
      rw [Store.setAggregate_self]
      exact List.prefix_append _ _
    · rw [Store.setAggregate_ne s hid]
  refine ⟨?_, ?_, ?_, ?_, ?_⟩
  · intro E hE id'
    exact (h.published E hE id').trans ((hmem id').filter _)
  · intro o' e he
    by_cases ho : o' = o
    · subst ho
      rw [Function.update_self] at he
      rw [hown e he, Store.setAggregate_self]
      exact List.mem_append_right _ he
    · rw [Function.update_of_ne ho] at he
      exact (hmem _).subset (h.stored o' e he)
  · intro id' e he hE
    have hold : e ∈ s.aggregate id' →
        e ∈ s.typed (getStream e.type) ∨ ∃ o', e ∈ Function.update u o events o' := by
      intro he
      rcases h.covered id' e he hE with hpub | ⟨o', ho'⟩
      · exact Or.inl hpub
      · have hne : o' ≠ o := by
          rintro rfl
          rw [hnone] at ho'
          cases ho'
        exact Or.inr ⟨o', by rwa [Function.update_of_ne hne]⟩
    by_cases hid : id' = id
    · subst hid
      rw [Store.setAggregate_self] at he
      rcases List.mem_append.mp he with he | he
      · exact hold he
      · exact Or.inr ⟨o, by rwa [Function.update_self]⟩
    · rw [Store.setAggregate_ne s hid] at he
      exact hold he
  · intro o' e he hE hpub
    by_cases ho : o' = o
    · subst ho
      rw [Function.update_self] at he
      have hin := h.mem_aggregate hE hpub
      rw [hown e he] at hin
      exact hnew e he hin
    · rw [Function.update_of_ne ho] at he
      exact h.apart o' e he hE hpub
  · intro o₁ o₂ e h₁ h₂
    -- the events of the batch are new
    have hfresh : ∀ o', o' ≠ o → e ∈ u o' → e ∉ events := fun o' _ he hin => by
      have hstored := h.stored o' e he
      rw [hown e hin] at hstored
      exact hnew e hin hstored
    by_cases ho₁ : o₁ = o <;> by_cases ho₂ : o₂ = o
    · rw [ho₁, ho₂]
    · rw [ho₁, Function.update_self] at h₁
      rw [Function.update_of_ne ho₂] at h₂
      exact absurd h₁ (hfresh o₂ ho₂ h₂)
    · rw [ho₂, Function.update_self] at h₂
      rw [Function.update_of_ne ho₁] at h₁
      exact absurd h₂ (hfresh o₁ ho₁ h₁)
    · rw [Function.update_of_ne ho₁] at h₁
      rw [Function.update_of_ne ho₂] at h₂
      exact h.once o₁ o₂ e h₁ h₂

omit [DecidableEq Id] in
/-- The stored events of a class are in the order of their versions. -/
theorem eventsOfType_sorted (hhist : History id (s.aggregate id))
    (hshort : (s.aggregate id).length < 2 ^ 31 - 1) :
    (eventsOfType E (s.aggregate id)).Pairwise fun e e' => e.version < e'.version :=
  (hhist.pairwise_version hshort).filter _

/-- In its turn a save publishes the next events of the class. -/
theorem Placed.isNext {rest : List (AggregateEvent Id P)} (h : Placed types s u)
    (hE : E ∈ types) (hhist : History id (s.aggregate id))
    (hshort : (s.aggregate id).length < 2 ^ 31 - 1) (hsplit : u o = events ++ rest)
    (hsub : List.Sublist events (eventsOfType E (s.aggregate id)))
    (hrest : ∀ e ∈ rest, e.type ≠ E)
    (hturn : ∀ o' ≠ o, ∀ e' ∈ u o', e'.type = E →
      ∀ e ∈ events, e'.aggregateId = e.aggregateId → e.version < e'.version) :
    eventsOf id (s.typed (getStream E)) ++ events <+: eventsOfType E (s.aggregate id) := by
  obtain ⟨todo, htodo⟩ := h.published E hE id
  have hsorted := eventsOfType_sorted (E := E) hhist hshort
  have hown : ∀ e ∈ eventsOfType E (s.aggregate id), e.aggregateId = id :=
    fun e he => hhist.own e (mem_eventsOfType.mp he).1
  have hleft : ∀ e ∈ todo, e ∉ eventsOf id (s.typed (getStream E)) := by
    intro e he hpub
    rw [← htodo] at hsorted
    exact Int32.lt_irrefl ((List.pairwise_append.mp hsorted).2.2 e hpub e he)
  have hnext : events <+: todo := by
    refine List.isPrefix_of_pairwise (fun x y hlt => Int32.lt_asymm hlt) (hsorted.sublist hsub)
      ?_ ?_ ?_
    · rw [← htodo] at hsorted
      exact (List.pairwise_append.mp hsorted).2.1
    · intro e he
      have hin := hsub.subset he
      have htype := (mem_eventsOfType.mp hin).2
      rw [← htodo] at hin
      apply (List.mem_append.mp hin).resolve_left
      intro hpub
      have hwaits : e ∈ u o := by
        rw [hsplit]
        exact List.mem_append_left _ he
      apply h.apart o e hwaits (by rwa [htype])
      rw [htype]
      exact (mem_eventsOf.mp hpub).1
    · -- an event that is not published waits at this save or at another one
      intro e' he'
      have hin : e' ∈ eventsOfType E (s.aggregate id) := by
        rw [← htodo]
        exact List.mem_append_right _ he'
      obtain ⟨hstored, htype⟩ := mem_eventsOfType.mp hin
      rcases h.covered id e' hstored (by rwa [htype]) with hpub | ⟨o', ho'⟩
      · rw [htype] at hpub
        exact absurd (mem_eventsOf.mpr ⟨hpub, hown e' hin⟩) (hleft e' he')
      · by_cases ho : o' = o
        · subst ho
          rw [hsplit] at ho'
          exact Or.inl ((List.mem_append.mp ho').resolve_right fun hr => hrest e' hr htype)
        · refine Or.inr fun e he => hturn o' ho e' ho' htype e he ?_
          rw [hown e' hin, hown e (hsub.subset he)]
  rw [← htodo]
  exact (List.prefix_append_right_inj _).mpr hnext

/-- Out of its turn it does not: an earlier event of the class is still missing. -/
theorem Placed.not_isNext (h : Placed types s u) (hE : E ∈ types)
    (hhist : History id (s.aggregate id)) (hshort : (s.aggregate id).length < 2 ^ 31 - 1)
    (hevents : ∀ e ∈ events, e ∈ u o) {o' : Nat} (ho : o' ≠ o) {e' : AggregateEvent Id P}
    (he' : e' ∈ u o') (htype : e'.type = E) (he : e ∈ events) (hid : e'.aggregateId = id)
    (hlate : ¬ e.version < e'.version) :
    ¬ eventsOf id (s.typed (getStream E)) ++ events <+: eventsOfType E (s.aggregate id) := by
  rintro ⟨todo, htodo⟩
  have hin : e' ∈ eventsOfType E (s.aggregate id) := by
    refine mem_eventsOfType.mpr ⟨?_, htype⟩
    rw [← hid]
    exact h.stored o' e' he'
  have hsorted := eventsOfType_sorted (E := E) hhist hshort
  rw [← htodo] at hin hsorted
  rcases List.mem_append.mp hin with hmem | hmem
  · rcases List.mem_append.mp hmem with hpub | hmine
    · apply h.apart o' e' he' (by rwa [htype])
      rw [htype]
      exact (mem_eventsOf.mp hpub).1
    · exact ho (h.once o' o e' he' (hevents e' hmine))
  · exact hlate ((List.pairwise_append.mp hsorted).2.2 e (List.mem_append_right _ he) e' hmem)

/-- A save publishes the group of a class in its turn. -/
theorem Placed.publish {t : ClrType} {rest : List (AggregateEvent Id P)} (h : Placed types s u)
    (hhist : History id (s.aggregate id)) (hshort : (s.aggregate id).length < 2 ^ 31 - 1)
    (hsplit : u o = events ++ rest)
    (hsub : List.Sublist events (eventsOfType t (s.aggregate id)))
    (hrest : ∀ e ∈ rest, e.type ≠ t)
    (hclass : ∀ E ∈ types, getStream E = getStream t → E = t)
    (hturn : t ∈ types → ∀ o' ≠ o, ∀ e' ∈ u o', e'.type = t →
      ∀ e ∈ events, e'.aggregateId = e.aggregateId → e.version < e'.version) :
    Placed types (s.appendTyped (getStream t) events) (Function.update u o rest) := by
  have hevents : ∀ e ∈ events, e ∈ u o := fun e he => by
    rw [hsplit]
    exact List.mem_append_left _ he
  have hown : ∀ e ∈ events, e.aggregateId = id :=
    fun e he => hhist.own e (mem_eventsOfType.mp (hsub.subset he)).1
  have hle : ∀ o' e, e ∈ Function.update u o rest o' → e ∈ u o' := by
    intro o' e he
    by_cases ho : o' = o
    · subst ho
      rw [Function.update_self] at he
      rw [hsplit]
      exact List.mem_append_right _ he
    · rwa [Function.update_of_ne ho] at he
  refine ⟨?_, fun o' e he => h.stored o' e (hle o' e he), ?_, ?_,
    fun o₁ o₂ e h₁ h₂ => h.once o₁ o₂ e (hle o₁ e h₁) (hle o₂ e h₂)⟩
  · intro E hE id'
    show eventsOf id' ((s.appendTyped (getStream t) events).typed (getStream E)) <+:
      eventsOfType E (s.aggregate id')
    by_cases hname : getStream E = getStream t
    · obtain rfl := hclass E hE hname
      rw [Store.appendTyped_typed_self, eventsOf_append]
      by_cases hid : id' = id
      · subst hid
        rw [eventsOf_own hown]
        exact h.isNext hE hhist hshort hsplit hsub hrest (hturn hE)
      · rw [eventsOf_foreign hown hid, List.append_nil]
        exact h.published E hE id'
    · rw [Store.appendTyped_typed_ne s hname]
      exact h.published E hE id'
  · intro id' e he hE
    rcases h.covered id' e he hE with hpub | ⟨o', ho'⟩
    · exact Or.inl (((Extends.appendTyped s (getStream t) events).typed _).subset hpub)
    · by_cases ho : o' = o
      · subst ho
        rw [hsplit] at ho'
        rcases List.mem_append.mp ho' with hmem | hmem
        · left
          rw [(mem_eventsOfType.mp (hsub.subset hmem)).2, Store.appendTyped_typed_self]
          exact List.mem_append_right _ hmem
        · exact Or.inr ⟨o', by rwa [Function.update_self]⟩
      · exact Or.inr ⟨o', by rwa [Function.update_of_ne ho]⟩
  · intro o' e he hE hpub
    by_cases hname : getStream e.type = getStream t
    · have htype := hclass e.type hE hname
      rw [hname, Store.appendTyped_typed_self] at hpub
      rcases List.mem_append.mp hpub with hpub | hpub
      · rw [← hname] at hpub
        exact h.apart o' e (hle o' e he) hE hpub
      · obtain rfl := h.once o' o e (hle o' e he) (hevents e hpub)
        rw [Function.update_self] at he
        exact hrest e he htype
    · rw [Store.appendTyped_typed_ne s hname] at hpub
      exact h.apart o' e (hle o' e he) hE hpub

/-- Appending to a stream that is not a class's. -/
theorem Placed.appendTyped (h : Placed types s u) {name : String}
    (hname : ∀ E ∈ types, getStream E ≠ name) :
    Placed types (s.appendTyped name events) u where
  published E hE id := by
    rw [Store.appendTyped_typed_ne s (hname E hE)]
    exact h.published E hE id
  stored := h.stored
  covered id e he hE := by
    rw [Store.appendTyped_typed_ne s (hname _ hE)]
    exact h.covered id e he hE
  apart o e he hE := by
    rw [Store.appendTyped_typed_ne s (hname _ hE)]
    exact h.apart o e he hE
  once := h.once

/-- The same streams, and the same events to publish at each object. -/
theorem Placed.congr {s' : Store Id P} {u' : Nat → List (AggregateEvent Id P)}
    (h : Placed types s u) (htyped : s'.typed = s.typed) (haggregate : s'.aggregate = s.aggregate)
    (hu : ∀ o e, e ∈ u' o ↔ e ∈ u o) : Placed types s' u' where
  published E hE id := by
    rw [htyped, haggregate]
    exact h.published E hE id
  stored o e he := by
    rw [haggregate]
    exact h.stored o e ((hu o e).mp he)
  covered id e he hE := by
    rw [haggregate] at he
    rw [htyped]
    rcases h.covered id e he hE with hpub | ⟨o, ho⟩
    · exact Or.inl hpub
    · exact Or.inr ⟨o, (hu o e).mpr ho⟩
  apart o e he hE := by
    rw [htyped]
    exact h.apart o e ((hu o e).mp he) hE
  once o o' e he he' := h.once o o' e ((hu o e).mp he) ((hu o' e).mp he')

end Placed

-- ============================================================================
-- Steps
-- ============================================================================

/-- What a running save carries: the groups of its publish loop, and nothing that would
    join `T` where an event class has that name. -/
structure Obj.Orderly (types : Set ClrType) (T : String) (obj : Obj Id S P) : Prop where
  groups : ∀ t events rest, obj.saving = some (.bus t events rest) →
    ∃ done, eventsByType obj.agg.changes = done ++ (t, events) :: rest
  unnamed : ∀ E ∈ types, getStream E = T → ∀ events version,
    obj.saving = some (.aggregate events version) → events = []

structure Orderly [DecidableEq Id] (types : Set ClrType) (T : String) (w : World Id S P) :
    Prop where
  placed : Placed types w.store w.unpublishedAt
  objects : ∀ obj ∈ w.objects, obj.Orderly types T
  unnamed : ∀ E ∈ types, getStream E = T → ∀ id, w.store.aggregate id = []

section Steps

variable {types : Set ClrType} {T : String} {w : World Id S P} {o : Nat}

theorem Obj.orderly_idle (a : Aggregate Id S P) (views : List (View S)) :
    Obj.Orderly types T ⟨a, none, views⟩ := ⟨nofun, nofun⟩

theorem unpublishedAt_of_some {obj : Obj Id S P} (ho : w.objects[o]? = some obj) :
    w.unpublishedAt o = obj.unpublished := by
  rw [World.unpublishedAt, ho]

theorem unpublishedAt_addObject (w : World Id S P) (a : Aggregate Id S P)
    (views : List (View S)) : (w.addObject a views).unpublishedAt = w.unpublishedAt := by
  funext o
  rw [World.unpublishedAt, World.unpublishedAt]
  cases ho : w.objects[o]? with
  | some obj =>
      have ho' : (w.addObject a views).objects[o]? = some obj :=
        List.getElem?_append_of_some ho
      rw [ho']
  | none =>
      cases ho' : (w.addObject a views).objects[o]? with
      | none => rfl
      | some obj =>
          rcases List.getElem?_append_singleton ho' with hold | ⟨-, rfl⟩
          · rw [ho] at hold
            cases hold
          · rfl

theorem unpublishedAt_set {obj : Obj Id S P} (ho : w.objects[o]? = some obj) (s : Store Id P)
    (obj' : Obj Id S P) (commits : List (Commit Id S P)) :
    World.unpublishedAt ⟨s, w.objects.set o obj', commits⟩ =
      Function.update w.unpublishedAt o obj'.unpublished := by
  funext o'
  by_cases h : o' = o
  · subst h
    rw [Function.update_self]
    exact unpublishedAt_of_some (List.getElem?_set_self (List.getElem?_eq_some_iff.mp ho).1)
  · rw [Function.update_of_ne h]
    show (match (w.objects.set o obj')[o']? with
      | some obj => obj.unpublished
      | none => []) = _
    rw [List.getElem?_set_ne (Ne.symm h)]
    rfl

/-- The publish loop at its head has all of its groups to publish. -/
theorem unpublished_publishNext (a : Aggregate Id S P)
    (groups : List (ClrType × List (AggregateEvent Id P))) (views : List (View S)) :
    Obj.unpublished ⟨(publishNext a groups).1, (publishNext a groups).2, views⟩ =
      groups.flatMap Prod.snd := by
  cases groups with
  | nil => rfl
  | cons g rest => rfl

theorem Obj.orderly_publishNext {a : Aggregate Id S P}
    {groups : List (ClrType × List (AggregateEvent Id P))} {views : List (View S)}
    (h : ∃ done, eventsByType a.changes = done ++ groups) :
    Obj.Orderly types T ⟨(publishNext a groups).1, (publishNext a groups).2, views⟩ := by
  cases groups with
  | nil => exact ⟨nofun, nofun⟩
  | cons g rest =>
      refine ⟨fun t events rest' hsaving => ?_, nofun⟩
      obtain ⟨rfl, rfl, rfl⟩ : g.1 = t ∧ g.2 = events ∧ rest = rest' := by
        simpa [publishNext] using hsaving
      exact h

variable [DecidableEq Id]

theorem Orderly.addObject (h : Orderly types T w) (a : Aggregate Id S P)
    (views : List (View S)) : Orderly types T (w.addObject a views) where
  placed := by
    rw [unpublishedAt_addObject]
    exact h.placed
  objects := by
    intro obj hobj
    rcases List.mem_append.mp hobj with hobj | hobj
    · exact h.objects obj hobj
    · rw [List.mem_singleton.mp hobj]
      exact Obj.orderly_idle a views
  unnamed := h.unnamed

/-- The store changes and one object does. -/
theorem Orderly.set (h : Orderly types T w) {obj obj' : Obj Id S P}
    (ho : w.objects[o]? = some obj) {s : Store Id P} (commits : List (Commit Id S P))
    (hplaced : Placed types s (Function.update w.unpublishedAt o obj'.unpublished))
    (hobj : obj'.Orderly types T)
    (hunnamed : ∀ E ∈ types, getStream E = T → ∀ id, s.aggregate id = []) :
    Orderly types T ⟨s, w.objects.set o obj', commits⟩ where
  placed := by
    rw [unpublishedAt_set ho]
    exact hplaced
  objects := by
    intro obj'' hobj''
    rcases List.mem_or_eq_of_mem_set hobj'' with hmem | rfl
    · exact h.objects obj'' hmem
    · exact hobj
  unnamed := hunnamed

/-- One object changes and has the same events to publish. -/
theorem Orderly.setObject (h : Orderly types T w) {obj obj' : Obj Id S P}
    (ho : w.objects[o]? = some obj) (hsame : obj'.unpublished = obj.unpublished)
    (hobj : obj'.Orderly types T) : Orderly types T (w.setObject o obj') := by
  refine h.set ho w.commits ?_ hobj h.unnamed
  rw [hsame, ← unpublishedAt_of_some ho, Function.update_eq_self]
  exact h.placed

omit [DecidableEq Id] in
/-- The group at the head of the publish loop: the stored events of its class, and none of
    the class behind it. -/
theorem group_published {d : TotalDomain Id S P} {a : Aggregate Id S P}
    {views : List (View S)} {sk : Int32} {loaded events : List (AggregateEvent Id P)}
    {t : ClrType} {rest : List (ClrType × List (AggregateEvent Id P))}
    (ht : Tracks d w.store ⟨a, some (.bus t events rest), views⟩ sk loaded)
    (hgroups : Obj.Orderly types T ⟨a, some (.bus t events rest), views⟩) :
    events ≠ [] ∧ List.Sublist events (eventsOfType t (w.store.aggregate a.id)) ∧
      ∀ e ∈ rest.flatMap Prod.snd, e.type ≠ t := by
  obtain ⟨done, hdone⟩ := hgroups.groups t events rest rfl
  have hmem : (t, events) ∈ eventsByType a.changes := by
    rw [hdone]
    simp
  have hstored : loaded ++ a.changes <+: w.store.aggregate a.id := ht.saving _ rfl
  refine ⟨(group_spec hmem).1, ?_, ?_⟩
  · rw [(mem_groupBy.mp hmem).2]
    exact ((List.sublist_append_right loaded a.changes).trans hstored.sublist).filter _
  · intro e he htype
    obtain ⟨⟨t', events'⟩, hg, he⟩ := List.mem_flatMap.mp he
    have hmem' : (t', events') ∈ eventsByType a.changes := by
      rw [hdone]
      simp [hg]
    obtain rfl : e.type = t' := ((group_spec hmem').2 e he).2
    have hkeys : ((eventsByType a.changes).map Prod.fst).Nodup := nodup_groupBy_keys _ _
    rw [hdone, List.map_append, List.map_cons, List.nodup_append] at hkeys
    apply (List.nodup_cons.mp hkeys.2.1).1
    show t ∈ _
    rw [← htype]
    exact List.mem_map_of_mem hg

/-- The append to the category stream brings no event of a class. -/
theorem Orderly.completes_category (h : Orderly types T w) {a : Aggregate Id S P}
    {events : List (AggregateEvent Id P)} {views : List (View S)}
    (ho : w.objects[o]? = some ⟨a, some (.category events), views⟩)
    (hturn : Awaiting.InTurn types T w o (.category events)) {version : Int}
    (views' : List (View S)) (commits : List (Commit Id S P)) :
    Orderly types T ⟨w.store.appendTyped T events,
      w.objects.set o ⟨a, some (.aggregate events version), views'⟩, commits⟩ := by
  have hu := unpublishedAt_of_some ho
  refine h.set ho commits ?_ ⟨?_, ?_⟩ h.unnamed
  · have hupdate : Function.update w.unpublishedAt o [] = w.unpublishedAt := by
      rw [← show w.unpublishedAt o = [] from hu, Function.update_eq_self]
    show Placed types _ (Function.update w.unpublishedAt o [])
    rw [hupdate]
    rcases hturn with rfl | hname
    · refine h.placed.congr ?_ rfl fun _ _ => Iff.rfl
      show Function.update w.store.typed T (w.store.typed T ++ []) = w.store.typed
      rw [List.append_nil, Function.update_eq_self]
    · exact h.placed.appendTyped hname
  · intro t group rest hsaving
    cases hsaving
  · intro E hE hname events' version' hsaving
    cases hsaving
    exact hturn.resolve_right fun hall => hall E hE hname

/-- The append to the aggregate stream leaves a new batch to publish. -/
theorem Orderly.completes_aggregate {d : TotalDomain Id S P} (h : Orderly types T w)
    (hinv : Inv d w) (hshort : Short T w.store) {a : Aggregate Id S P}
    {events stream : List (AggregateEvent Id P)} {version : Int} {views : List (View S)}
    (ho : w.objects[o]? = some ⟨a, some (.aggregate events version), views⟩)
    (hsave : saveEvents (w.store.aggregate a.id) events version = some stream)
    (hshort' : Short T (w.store.setAggregate a.id stream)) (views' : List (View S))
    (commits : List (Commit Id S P)) :
    Orderly types T
      ⟨w.store.setAggregate a.id stream, w.objects.set o ⟨a, some .ids, views'⟩, commits⟩ := by
  have hobj := h.objects _ (List.mem_of_getElem? ho)
  obtain ⟨sk, loaded, ht⟩ := hinv.objects _ (List.mem_of_getElem? ho)
  have hu := unpublishedAt_of_some ho
  obtain ⟨rfl, hloaded, rfl⟩ := ht.accepted hshort hsave
  rw [← hloaded] at hshort' ⊢
  refine h.set ho commits (h.placed.store hu ?_ ?_) ⟨?_, ?_⟩ ?_
  · exact fun e he => ht.history.own e (List.mem_append_right loaded he)
  · -- the versions of the batch follow those of the stream
    intro e he hold
    have hlength := hshort'.aggregate a.id
    rw [Store.setAggregate_self, hloaded] at hlength
    have hsorted := ht.history.pairwise_version hlength
    rw [hloaded] at hold
    exact Int32.lt_irrefl ((List.pairwise_append.mp hsorted).2.2 e hold e he)
  · intro t group rest hsaving
    cases hsaving
  · intro E hE hname events' version hsaving
    cases hsaving
  · intro E hE hname id
    have hnone : a.changes = [] := hobj.unnamed E hE hname _ _ rfl
    by_cases hid : id = a.id
    · subst hid
      rw [Store.setAggregate_self, hnone, List.append_nil]
      exact h.unnamed E hE hname a.id
    · rw [Store.setAggregate_ne _ hid]
      exact h.unnamed E hE hname id

/-- A call that succeeds in its turn. -/
theorem Orderly.completes {d : TotalDomain Id S P} (h : Orderly types T w) (hinv : Inv d w)
    (hshort : Short T w.store) {a a' : Aggregate Id S P} {call : Awaiting Id P}
    {views : List (View S)} (ho : w.objects[o]? = some ⟨a, some call, views⟩)
    (hturn : call.InTurn types T w o) {drop : Bool} {s : Store Id P}
    {next : Option (Awaiting Id P)} (hr : resume T drop w.store a call = some (s, a', next))
    (hshort' : Short T s) (views' : List (View S)) (commits : List (Commit Id S P)) :
    Orderly types T ⟨s, w.objects.set o ⟨a', next, views'⟩, commits⟩ := by
  have hobj := h.objects _ (List.mem_of_getElem? ho)
  obtain ⟨sk, loaded, ht⟩ := hinv.objects _ (List.mem_of_getElem? ho)
  have hu := unpublishedAt_of_some ho
  cases call with
  | category events =>
      cases hr
      exact h.completes_category ho hturn views' commits
  | aggregate events version =>
      obtain ⟨stream, hsave, rfl, rfl, rfl⟩ := resume_aggregate hr
      exact h.completes_aggregate hinv hshort ho hsave hshort' views' commits
  | ids =>
      obtain ⟨rfl, hnext⟩ := resume_ids hr
      obtain ⟨rfl, rfl⟩ := Prod.ext_iff.mp hnext
      refine h.set ho commits ?_ (Obj.orderly_publishNext ⟨[], rfl⟩) ?_
      · rw [unpublished_publishNext]
        refine h.placed.congr (Store.appendId_typed _ _ _) (Store.appendId_aggregate _ _ _) ?_
        intro o' e
        by_cases hne : o' = o
        · subst hne
          rw [Function.update_self, hu]
          exact mem_flatMap_groupBy
        · rw [Function.update_of_ne hne]
      · intro E hE hname id
        rw [Store.appendId_aggregate]
        exact h.unnamed E hE hname id
  | bus t events rest =>
      obtain ⟨rfl, hnext⟩ := resume_bus hr
      obtain ⟨rfl, rfl⟩ := Prod.ext_iff.mp hnext
      obtain ⟨-, hsub, hrest⟩ := group_published ht hobj
      obtain ⟨done, hdone⟩ := hobj.groups t events rest rfl
      refine h.set ho commits ?_ (Obj.orderly_publishNext ⟨done ++ [(t, events)], ?_⟩) h.unnamed
      · rw [unpublished_publishNext]
        exact h.placed.publish (hinv.streams a.id) (hshort.aggregate a.id) hu hsub hrest
          hturn.1 hturn.2
      · rw [List.append_assoc]
        exact hdone

/-- A call that succeeds out of its turn. -/
theorem Orderly.not_inOrder {d : TotalDomain Id S P} (h : Orderly types T w) (hinv : Inv d w)
    (hshort : Short T w.store) {a a' : Aggregate Id S P} {call : Awaiting Id P}
    {views : List (View S)} (ho : w.objects[o]? = some ⟨a, some call, views⟩)
    (hturn : ¬ call.InTurn types T w o) {drop : Bool} {s : Store Id P}
    {next : Option (Awaiting Id P)} (hr : resume T drop w.store a call = some (s, a', next))
    (objects : List (Obj Id S P)) (commits : List (Commit Id S P)) :
    ¬ InOrder types (⟨s, objects, commits⟩ : World Id S P) := by
  have hobj := h.objects _ (List.mem_of_getElem? ho)
  obtain ⟨sk, loaded, ht⟩ := hinv.objects _ (List.mem_of_getElem? ho)
  have hu := unpublishedAt_of_some ho
  intro hin
  cases call with
  | category events =>
      cases hr
      simp only [Awaiting.InTurn, not_or, not_forall, not_not] at hturn
      obtain ⟨hne, E, hE, hname⟩ := hturn
      obtain ⟨e, he⟩ := List.exists_mem_of_ne_nil events hne
      have hmem : e ∈ eventsOf e.aggregateId
          ((w.store.appendTyped T events).typed (getStream E)) := by
        rw [hname, Store.appendTyped_typed_self]
        exact mem_eventsOf.mpr ⟨List.mem_append_right _ he, rfl⟩
      have hstored := (mem_eventsOfType.mp ((hin E hE e.aggregateId).subset hmem)).1
      rw [show (w.store.appendTyped T events).aggregate e.aggregateId = [] from
        h.unnamed E hE hname e.aggregateId] at hstored
      cases hstored
  | aggregate events version => exact hturn trivial
  | ids => exact hturn trivial
  | bus t events rest =>
      obtain ⟨rfl, -⟩ := resume_bus hr
      obtain ⟨hne, hsub, -⟩ := group_published ht hobj
      have hown : ∀ e ∈ events, e.aggregateId = a.id :=
        fun e he => (hinv.streams a.id).own e (mem_eventsOfType.mp (hsub.subset he)).1
      simp only [Awaiting.InTurn, not_and_or, not_forall] at hturn
      rcases hturn with ⟨E, hE, hname, hother⟩ | ⟨hE, o', ho', e', he', htype, e, he, hid, hlate⟩
      · -- a class with the same simple name
        obtain ⟨e, he⟩ := List.exists_mem_of_ne_nil events hne
        have hmem : e ∈ eventsOf a.id ((w.store.appendTyped (getStream t) events).typed
            (getStream E)) := by
          rw [hname, Store.appendTyped_typed_self]
          exact mem_eventsOf.mpr ⟨List.mem_append_right _ he, hown e he⟩
        have htype := (mem_eventsOfType.mp ((hin E hE a.id).subset hmem)).2
        exact hother (htype.symm.trans (mem_eventsOfType.mp (hsub.subset he)).2)
      · have hprefix := hin t hE a.id
        rw [show (w.store.appendTyped (getStream t) events).typed (getStream t) = _ from
          Store.appendTyped_typed_self _ _ _, eventsOf_append, eventsOf_own hown] at hprefix
        refine h.placed.not_isNext hE (hinv.streams a.id) (hshort.aggregate a.id) ?_ ho' he' htype
          he (hid.trans (hown e he)) hlate hprefix
        intro e he
        rw [hu]
        exact List.mem_append_left _ he

/-- A step that ends a call, when the call succeeds. -/
theorem complete_cases {d : Domain Id S P} {fault : Fault} {drop : Bool} {w' : World Id S P}
    (hsucceeds : succeeds T w (.complete o fault drop) = true)
    (hstep : step d T w (.complete o fault drop) = some w') :
    ∃ a call views s a' next, w.objects[o]? = some ⟨a, some call, views⟩ ∧
      resume T drop w.store a call = some (s, a', next) ∧
      w' = ⟨s, w.objects.set o ⟨a', next, if next.isNone then [] else views⟩,
        w.commitLog ⟨a, some call, views⟩ call⟩ := by
  simp only [succeeds, Bool.and_eq_true, decide_eq_true_eq] at hsucceeds
  obtain ⟨rfl, hsome⟩ := hsucceeds
  simp only [step] at hstep
  split at hstep
  · rename_i a call views ho
    obtain rfl := Option.some.inj hstep
    rw [ho] at hsome
    have hsome : (resume T drop w.store a call).isSome = true := hsome
    rcases completeCall_cases T w o ⟨a, some call, views⟩ call .none drop with ⟨-, hfail⟩ |
      ⟨s, a', next, hr, ⟨hafter, -⟩ | ⟨-, heq⟩⟩
    · rcases hfail with hfault | hnone
      · cases hfault
      · rw [show resume T drop w.store a call = none from hnone] at hsome
        cases hsome
    · cases hafter
    · exact ⟨a, call, views, s, a', next, ho, hr, heq⟩
  · cases hstep

theorem Orderly.step {d : TotalDomain Id S P} (h : Orderly types T w) (hinv : Inv d w)
    (hshort : Short T w.store) {l : Label Id P} {w' : World Id S P}
    (hsucceeds : succeeds T w l = true)
    (hshort' : Short T w'.store) (hturn : InTurn types T w l)
    (hstep : EventStore.step d.domain T w l = some w') : Orderly types T w' := by
  rcases step_cases hstep with ⟨_, _, -, rfl⟩ | ⟨_, _, _, _, -, -, rfl⟩ |
    ⟨_, _, _, _, _, _, -, -, -, rfl⟩ | ⟨_, _, _, _, -, -, rfl⟩ |
    ⟨_, _, _, _, _, -, ho, ⟨_, -, rfl⟩ | ⟨_, -, rfl⟩⟩ | ⟨_, _, _, -, ho, rfl⟩ |
    ⟨o, fault, drop, a, call, views, rfl, ho, -⟩
  · exact h.addObject _ _
  · exact h.addObject _ _
  · exact h.addObject _ _
  · exact h.addObject _ _
  · exact h.setObject ho rfl (Obj.orderly_idle _ _)
  · exact h.setObject ho rfl (Obj.orderly_idle _ _)
  · exact h.setObject ho rfl ⟨nofun, nofun⟩
  · obtain ⟨a, call, views, s, a', next, ho, hr, rfl⟩ := complete_cases hsucceeds hstep
    exact h.completes hinv hshort ho (hturn a call views ho) hr hshort' _ _

theorem orderly_init : Orderly types T (World.init : World Id S P) where
  placed := by
    exact ⟨fun _ _ _ => List.nil_prefix, nofun, nofun, nofun, nofun⟩
  objects _ hobj := absurd hobj List.not_mem_nil
  unnamed _ _ _ _ := rfl

/-- Streams that are short at the end of a run are short after each of its steps. -/
theorem along_short_next {d : Domain Id S P} {w' : World Id S P} {ls : List (Label Id P)}
    (hrun : Transition.run (EventStore.step d T) w ls = some w')
    (hshort : Short T w'.store) :
    Transition.Along (EventStore.step d T)
      (fun w l => ∀ u, EventStore.step d T w l = some u → Short T u.store) w ls := by
  induction ls generalizing w with
  | nil => trivial
  | cons l ls ih =>
      obtain ⟨v, hv, hrun⟩ := Transition.run_cons_eq_some.mp hrun
      refine (Transition.along_cons hv).mpr ⟨fun u hu => ?_, ih hrun⟩
      obtain rfl : v = u := Option.some.inj (hv.symm.trans hu)
      exact hshort.of_extends (run_extends hrun)

/-- **Subscribers see an aggregate's events in order** in every state of a run iff every
    save of the run publishes in its turn. -/
theorem inOrder_iff {d : Domain Id S P} {w : World Id S P} {ls : List (Label Id P)}
    (hrun : Transition.run (EventStore.step d T) World.init ls = some w)
    (haccepting : Transition.Along (EventStore.step d T) (Accepting d) World.init ls)
    (hsucceeds : Transition.Along (EventStore.step d T) (fun w l => succeeds T w l = true)
      World.init ls)
    (hshort : Short T w.store) :
    Transition.Always (EventStore.step d T) (InOrder types) World.init ls ↔
      Transition.Along (EventStore.step d T) (InTurn types T) World.init ls := by
  have hstart : Short T (World.init : World Id S P).store := hshort.of_extends (run_extends hrun)
  refine Transition.always_iff_along
    (I := fun w => Inv d.total w ∧ Short T w.store ∧ Orderly types T w)
    (fun w h => h.2.2.placed.published) ?_ ?_ ⟨inv_init, hstart, orderly_init⟩
    (haccepting.and (hsucceeds.and (along_short_next hrun hshort))) hrun
  · rintro w l w' ⟨hinv, hshort, h⟩ ⟨haccepting, hsucceeds, hnext⟩ hturn hstep
    have hshort' := hnext w' hstep
    have hstep := step_total hinv hshort haccepting hstep
    exact ⟨hinv.step hshort hstep, hshort',
      h.step hinv hshort hsucceeds hshort' hturn hstep⟩
  · rintro w l w' ⟨hinv, hshort, h⟩ ⟨-, hsucceeds, -⟩ hturn hstep
    cases l with
    | complete o fault drop =>
        obtain ⟨a, call, views, s, a', next, ho, hr, rfl⟩ := complete_cases hsucceeds hstep
        refine h.not_inOrder hinv hshort ho (fun hcall => hturn ?_) hr _ _
        intro a₁ call₁ views₁ ho₁
        cases ho.symm.trans ho₁
        exact hcall
    | _ => exact absurd trivial hturn

end Steps

section Users

open Milde.UserManagement

/-- The event classes of a user. -/
def userEventTypes : Set ClrType :=
  {E | E ∈ ["UserCreatedEvent", "UserFirstNameChanged", "UserLastNameChanged",
    "UserAgeChanged"].map UserEvent.type.contract}

/-- One writer takes turns with itself. -/
theorem inOrder_oneWriter :
    Transition.run (step userDomain.domain "User") World.init oneWriter = some oneWriterEnd ∧
      Transition.Always (step userDomain.domain "User") (InOrder userEventTypes) World.init
        oneWriter := by
  have hrun : Transition.run (step userDomain.domain "User") World.init oneWriter =
      some oneWriterEnd := rfl
  have haccepting : Transition.Along (step userDomain.domain "User")
      (Accepting userDomain.domain) World.init oneWriter :=
    Transition.along_of_forall (accepting_of_total userDomain) _ _
  refine ⟨hrun, (inOrder_iff hrun haccepting (by decide) short_oneWriterEnd).mpr ?_⟩
  refine (Transition.along_cons rfl).mpr ⟨trivial, (Transition.along_cons rfl).mpr ⟨trivial,
    (Transition.along_cons rfl).mpr ⟨trivial, (Transition.along_cons rfl).mpr ⟨?_,
      (Transition.along_cons rfl).mpr ⟨?_, (Transition.along_cons rfl).mpr ⟨?_,
        (Transition.along_cons rfl).mpr ⟨?_, trivial⟩⟩⟩⟩⟩⟩⟩
  · intro a call views ho
    cases ho
    exact Or.inr (by decide : ∀ E ∈ List.map _ _, getStream E ≠ "User")
  · intro a call views ho
    cases ho
    trivial
  · intro a call views ho
    cases ho
    trivial
  · intro a call views ho
    cases ho
    refine ⟨(by decide : ∀ E ∈ List.map _ _, getStream E = "UserCreatedEvent" → _),
      fun _ o' ho' e' he' => ?_⟩
    -- there is no other object
    obtain ⟨k, rfl⟩ := Nat.exists_eq_succ_of_ne_zero ho'
    cases he'

/-- A user's age is changed; before the event is published another process loads the user,
    changes the age again, and saves and publishes. -/
def overtaken : List (Label Nat UserEvent) :=
  oneWriter ++ [.deserialize 7 1 0, .raise 1 (UserEvent.ageChanged 31).type (.ageChanged 31),
    .save 1] ++ List.replicate 3 (.complete 1 .none false) ++
  [.deserialize 7 2 0, .raise 2 (UserEvent.ageChanged 32).type (.ageChanged 32), .save 2] ++
    List.replicate 4 (.complete 2 .none false)

/-- Every save of the run succeeds, and the stream of the class has the later of the two
    events alone. -/
theorem inOrder_fails_overtaken :
    ∃ w, Transition.run (step userDomain.domain "User") World.init overtaken = some w ∧
      Transition.Along (step userDomain.domain "User") (fun w l => succeeds "User" w l = true)
        World.init overtaken ∧
      (eventsOf 7 (w.store.typed "UserAgeChanged")).map (fun e => e.version) = [3] ∧
      (eventsOfType (UserEvent.ageChanged 0).type (w.store.aggregate 7)).map
        (fun e => e.version) = [2, 3] ∧
      ¬ InOrder userEventTypes w := by
  refine ⟨_, rfl, by decide, rfl, rfl, fun h => ?_⟩
  have hinOrder := h (UserEvent.ageChanged 0).type (by decide : _ ∈ List.map _ _) 7
  have hprefix := hinOrder.map fun e => e.version
  revert hprefix
  decide

end Users

end Milde.EventStore
