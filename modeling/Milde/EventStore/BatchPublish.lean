/-
  Milde.EventStore.BatchPublish

  `EventBus.Publish` with one event and with a list, on a store that takes every append
  (EventStore/EventBus/EventBus.cs).

  The list is regrouped by class and appended group by group.  What a stream gets are the
  entries of the groups whose class has its name (`publishList_eq`); that they are the events
  of the list with this name, those of one class in list order, is a fact about grouping.
  The two functions are what the steps of the bus do (`publishList_run`).
-/
import Milde.EventStore.EventBus

namespace Milde.EventStore

open Milde.EventSourcing

variable {Id P Json : Type}

/-- `AppendToStreamAsync(stream, ExpectedVersion.Any, …)`. -/
def appendToStream (streams : String → List (EventData Json)) (stream : String)
    (events : List (EventData Json)) : String → List (EventData Json) :=
  Function.update streams stream (streams stream ++ events)

/-- `Publish(event)`. -/
def EventBus.publish (c : Serializer Id P Json) (streams : String → List (EventData Json))
    (event : AggregateEvent Id P) : String → List (EventData Json) :=
  appendToStream streams (getStream event.type) [toEventData c event]

/-- `Publish(events)`. -/
def EventBus.publishList (c : Serializer Id P Json) (streams : String → List (EventData Json))
    (events : List (AggregateEvent Id P)) : String → List (EventData Json) :=
  (eventsByType events).foldl (fun streams g =>
    appendToStream streams (getStream g.1) (g.2.map (toEventData c))) streams

/-- What a list brings to a stream: the groups whose class has the name of the stream. -/
def eventsTo (stream : String) (events : List (AggregateEvent Id P)) :
    List (AggregateEvent Id P) :=
  entriesOf AggregateEvent.type (fun eventType => getStream eventType = stream) events

/-- No two classes of the list have one simple name. -/
def DistinctNames (events : List (AggregateEvent Id P)) : Prop :=
  ∀ e ∈ events, ∀ e' ∈ events, e.type.name = e'.type.name → e.type = e'.type

section Publish

variable {c : Serializer Id P Json} {streams : String → List (EventData Json)}
  {events : List (AggregateEvent Id P)}

/-- The groups that go to a stream are appended to it. -/
theorem publishList_eq (c : Serializer Id P Json) (streams : String → List (EventData Json))
    (events : List (AggregateEvent Id P)) (stream : String) :
    EventBus.publishList c streams events stream =
      streams stream ++ (eventsTo stream events).map (toEventData c) := by
  have h := List.foldl_update_append
    (fun g : ClrType × List (AggregateEvent Id P) => getStream g.1)
    (fun g => g.2.map (toEventData c)) (eventsByType events) streams stream
  rw [eventsTo, entriesOf, List.map_flatMap]
  exact h

/-- One by one, each stream gets the events with its name. -/
theorem foldl_publish_eq (c : Serializer Id P Json) (streams : String → List (EventData Json))
    (events : List (AggregateEvent Id P)) (stream : String) :
    events.foldl (EventBus.publish c) streams stream =
      streams stream ++
        (events.filter fun e => getStream e.type = stream).map (toEventData c) := by
  have h := List.foldl_update_append (fun e : AggregateEvent Id P => getStream e.type)
    (fun e => [toEventData c e]) events streams stream
  rw [List.map_eq_flatMap]
  exact h

/-- Every entry that a list appends to a stream reads back, at its class, as its event. -/
theorem publishList_readBack (c : Serializer Id P Json)
    (streams : String → List (EventData Json)) (events : List (AggregateEvent Id P))
    (stream : String) :
    List.Forall₂ (fun eventData e => fromEventData c e.type eventData = e)
      ((EventBus.publishList c streams events stream).drop (streams stream).length)
      (eventsTo stream events) := by
  rw [publishList_eq, List.drop_left, List.forall₂_map_left_iff, List.forall₂_same]
  exact fun e _ => fromEventData_self c e

/-- Where the names are distinct, the groups of a stream are the one of its class. -/
theorem DistinctNames.eventsTo_eq (h : DistinctNames events) (stream : String) :
    eventsTo stream events = events.filter fun e => getStream e.type = stream := by
  apply entriesOf_eq_filter AggregateEvent.type
  intro e he e' he' hname hname'
  exact h e he e' he' ((of_decide_eq_true hname).trans (of_decide_eq_true hname').symm)

/-- **Batch publishing** appends each event once, to the stream named after its class, keeps
    the order within a class, and does what publishing one by one does when the names are
    distinct. -/
theorem batch_publish (c : Serializer Id P Json) (streams : String → List (EventData Json))
    (events : List (AggregateEvent Id P)) :
    (∃ appended : String → List (AggregateEvent Id P), ∀ stream,
      EventBus.publishList c streams events stream =
        streams stream ++ (appended stream).map (toEventData c) ∧
      (appended stream).Perm (events.filter fun e => getStream e.type = stream) ∧
      ∀ eventType, getStream eventType = stream →
        ((appended stream).filter fun e => e.type = eventType) =
          events.filter fun e => e.type = eventType) ∧
    (DistinctNames events →
      EventBus.publishList c streams events = events.foldl (EventBus.publish c) streams) := by
  refine ⟨⟨fun stream => eventsTo stream events, fun stream => ⟨?_, ?_, ?_⟩⟩, fun h => ?_⟩
  · exact publishList_eq c streams events stream
  · exact entriesOf_perm AggregateEvent.type _ events
  · intro eventType hname
    exact filter_entriesOf AggregateEvent.type events (decide_eq_true hname)
  · funext stream
    rw [publishList_eq, foldl_publish_eq, h.eventsTo_eq]

/-- Events of two classes, in turn. -/
def ordersBatch : List (AggregateEvent Nat String) :=
  [⟨salesCreated, 1, 1, 0, "a"⟩, ⟨salesShipped, 1, 2, 0, "b"⟩, ⟨salesCreated, 2, 1, 0, "c"⟩]

theorem batch_publish_orders : DistinctNames ordersBatch ∧
    EventBus.publishList sharedMembers (fun _ => []) ordersBatch =
      ordersBatch.foldl (EventBus.publish sharedMembers) fun _ => [] := by
  have hdistinct : DistinctNames ordersBatch := by
    unfold DistinctNames
    decide
  exact ⟨hdistinct, (batch_publish sharedMembers (fun _ => []) ordersBatch).2 hdistinct⟩

-- ============================================================================
-- The steps of the bus
-- ============================================================================

/-- The appends of a running `Publish`, one after the other. -/
theorem append_run (c : Serializer Id P Json) (groups : List (ClrType × List (AggregateEvent Id P)))
    {b : EventBus Id P Json} {i : Nat} (hi : b.publishing[i]? = some groups) :
    ∃ b', Transition.run (busStep c) b (List.replicate groups.length (.append i)) = some b' ∧
      b'.streams = groups.foldl (fun streams g =>
        appendToStream streams (getStream g.1) (g.2.map (toEventData c))) b.streams ∧
      b'.subscriptions = b.subscriptions := by
  induction groups generalizing b with
  | nil => exact ⟨b, rfl, rfl, rfl⟩
  | cons g groups ih =>
      let b₁ : EventBus Id P Json := { b with
        streams := appendToStream b.streams (getStream g.1) (g.2.map (toEventData c))
        publishing := b.publishing.set i groups
        appended := b.appended ++ g.2 }
      have hstep : busStep c b (.append i) = some b₁ := by
        simp only [busStep, hi]
        rfl
      have hnext : b₁.publishing[i]? = some groups :=
        List.getElem?_set_self (List.getElem?_eq_some_iff.mp hi).1
      obtain ⟨b', hrun, hstreams, hsubscriptions⟩ := ih hnext
      refine ⟨b', ?_, hstreams, hsubscriptions⟩
      rw [List.length_cons, List.replicate_succ]
      exact Transition.run_cons_eq_some.mpr ⟨b₁, hstep, hrun⟩

/-- **`Publish(events)` on a healthy store** is the call and the appends it makes. -/
theorem publishList_run (c : Serializer Id P Json) (b : EventBus Id P Json)
    (events : List (AggregateEvent Id P)) :
    ∃ b', Transition.run (busStep c) b (.publishAll events ::
        List.replicate (eventsByType events).length (.append b.publishing.length)) = some b' ∧
      b'.streams = EventBus.publishList c b.streams events ∧
      b'.subscriptions = b.subscriptions := by
  have hi : (b.publishing ++ [eventsByType events])[b.publishing.length]? =
      some (eventsByType events) := List.getElem?_concat_length
  obtain ⟨b', hrun, hstreams, hsubscriptions⟩ := append_run c (eventsByType events)
    (b := { b with publishing := b.publishing ++ [eventsByType events] }) hi
  exact ⟨b', Transition.run_cons_eq_some.mpr ⟨_, rfl, hrun⟩, hstreams, hsubscriptions⟩

end Publish

end Milde.EventStore
