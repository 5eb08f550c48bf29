/-
  Milde.EventStore.Store

  The streams of the event store and the two private helpers of
  EventStore/EventStore/EventStore.cs that touch them, `GetEvents` and `SaveEvents`.

  For one aggregate class `T` the source uses four kinds of streams: `T` itself,
  `T-{id}`, `T-Ids`, and one stream per event class named by its simple name.  The
  first and the last share one name space, so the model keeps them in one map
  `typed`; `T-{id}` and `T-Ids` are apart (`streams_apart`).  Events are stored as
  they are: the event ids of `EventData` are read back only from `T-Ids`, whose
  entries carry nothing else.
-/
import Milde.Common.AppendLog
import Milde.EventSourcing.Aggregate
import Mathlib.Logic.Function.Basic

namespace Milde.EventStore

open Milde.EventSourcing

variable {Id P α : Type}

-- ============================================================================
-- Stream names
-- ============================================================================

/-- `GetAggregateIDsStream`. -/
def getAggregateIDsStream (T : String) : String := T ++ "-Ids"

/-- `GetAggregateStream`, given the text of the id. -/
def getAggregateStream (T id : String) : String := T ++ "-" ++ id

/-- `EventBus.GetStream`: the simple name of the event class. -/
def getStream (eventType : ClrType) : String := eventType.name

/-- No class name (they have no `-`) is the name of an aggregate stream or of the
    ids stream, different ids have different streams, and none is the ids stream. -/
theorem streams_apart {T name : String} (hname : '-' ∉ name.toList) {id id' : String}
    (hid : id ≠ "Ids") :
    name ≠ getAggregateStream T id ∧ name ≠ getAggregateIDsStream T ∧
      getAggregateStream T id ≠ getAggregateIDsStream T ∧
      (getAggregateStream T id = getAggregateStream T id' → id = id') := by
  have hdash : ∀ s, '-' ∈ (T ++ "-" ++ s).toList := by simp
  refine ⟨?_, ?_, ?_, ?_⟩
  · rintro rfl
    exact hname (hdash id)
  · rintro rfl
    exact hname (by simp [getAggregateIDsStream])
  · intro h
    have h : (T ++ "-" ++ id).toList = (T ++ "-Ids").toList := congrArg String.toList h
    simp only [String.toList_append, List.append_assoc, List.append_cancel_left_eq] at h
    have h : '-' :: id.toList = '-' :: "Ids".toList := h
    exact hid (String.toList_inj.mp (List.cons.inj h).2)
  · intro h
    have h : (T ++ "-" ++ id).toList = (T ++ "-" ++ id').toList := congrArg String.toList h
    simp only [String.toList_append, List.append_cancel_left_eq] at h
    exact String.toList_inj.mp h

-- ============================================================================
-- The streams
-- ============================================================================

/-- The streams of one aggregate class and of the event classes. -/
structure Store (Id P : Type) where
  typed : String → List (AggregateEvent Id P)
  aggregate : Id → List (AggregateEvent Id P)
  ids : List Id

namespace Store

/-- The store before any save. -/
def empty : Store Id P := ⟨fun _ => [], fun _ => [], []⟩

def appendTyped (s : Store Id P) (name : String) (events : List (AggregateEvent Id P)) :
    Store Id P :=
  { s with typed := Function.update s.typed name (s.typed name ++ events) }

def setAggregate [DecidableEq Id] (s : Store Id P) (id : Id)
    (stream : List (AggregateEvent Id P)) : Store Id P :=
  { s with aggregate := Function.update s.aggregate id stream }

/-- An append to `T-Ids`, whose event id is the aggregate's: the server may or may
    not drop an event id the stream already has. -/
def appendId [DecidableEq Id] (s : Store Id P) (drop : Bool) (id : Id) : Store Id P :=
  if drop && decide (id ∈ s.ids) then s else { s with ids := s.ids ++ [id] }

@[simp] theorem appendTyped_aggregate (s : Store Id P) (name : String)
    (events : List (AggregateEvent Id P)) :
    (s.appendTyped name events).aggregate = s.aggregate := rfl

@[simp] theorem appendTyped_ids (s : Store Id P) (name : String)
    (events : List (AggregateEvent Id P)) : (s.appendTyped name events).ids = s.ids := rfl

@[simp] theorem appendTyped_typed_self (s : Store Id P) (name : String)
    (events : List (AggregateEvent Id P)) :
    (s.appendTyped name events).typed name = s.typed name ++ events := by
  simp [appendTyped]

theorem appendTyped_typed_ne (s : Store Id P) {name name' : String} (h : name' ≠ name)
    (events : List (AggregateEvent Id P)) :
    (s.appendTyped name events).typed name' = s.typed name' := by
  simp [appendTyped, Function.update_of_ne h]

variable [DecidableEq Id]

@[simp] theorem setAggregate_typed (s : Store Id P) (id : Id)
    (stream : List (AggregateEvent Id P)) : (s.setAggregate id stream).typed = s.typed := rfl

@[simp] theorem setAggregate_ids (s : Store Id P) (id : Id)
    (stream : List (AggregateEvent Id P)) : (s.setAggregate id stream).ids = s.ids := rfl

@[simp] theorem setAggregate_self (s : Store Id P) (id : Id)
    (stream : List (AggregateEvent Id P)) : (s.setAggregate id stream).aggregate id = stream := by
  simp [setAggregate]

theorem setAggregate_ne (s : Store Id P) {id id' : Id} (h : id' ≠ id)
    (stream : List (AggregateEvent Id P)) :
    (s.setAggregate id stream).aggregate id' = s.aggregate id' := by
  simp [setAggregate, Function.update_of_ne h]

@[simp] theorem appendId_typed (s : Store Id P) (drop : Bool) (id : Id) :
    (s.appendId drop id).typed = s.typed := by
  unfold appendId
  split <;> rfl

@[simp] theorem appendId_aggregate (s : Store Id P) (drop : Bool) (id : Id) :
    (s.appendId drop id).aggregate = s.aggregate := by
  unfold appendId
  split <;> rfl

@[simp] theorem mem_appendId_ids (s : Store Id P) (drop : Bool) (id id' : Id) :
    id' ∈ (s.appendId drop id).ids ↔ id' ∈ s.ids ∨ id' = id := by
  unfold appendId
  split
  · rename_i h
    simp only [Bool.and_eq_true, decide_eq_true_eq] at h
    refine ⟨?_, ?_⟩
    · exact Or.inl
    · rintro (h' | rfl)
      · exact h'
      · exact h.2
  · simp

end Store

-- ============================================================================
-- SaveEvents
-- ============================================================================

/-- `ExpectedVersion.Any`. -/
def ExpectedVersion.any : Int := -2

/-- `SaveEvents` on its stream: start a transaction at `expectedVersion`, write,
    commit.  `none` is the `WrongExpectedVersion` exception, without effect. -/
def saveEvents (stream events : List α) (expectedVersion : Int) : Option (List α) :=
  if expectedVersion = ExpectedVersion.any then some (stream ++ events)
  else AppendLog.appendAt stream events expectedVersion

theorem saveEvents_of_ne_any {stream events : List α} {v : Int} (h : v ≠ ExpectedVersion.any) :
    saveEvents stream events v = AppendLog.appendAt stream events v := if_neg h

/-- A committed transaction has appended its events. -/
theorem saveEvents_eq_some {stream events stream' : List α} {v : Int}
    (h : saveEvents stream events v = some stream') : stream' = stream ++ events := by
  unfold saveEvents at h
  split at h
  · exact (Option.some.inj h).symm
  · exact (AppendLog.appendAt_eq_some.mp h).2

-- ============================================================================
-- GetEvents
-- ============================================================================

/-- A page of a forward read. -/
structure StreamEventsSlice (α : Type) where
  events : List α
  nextEventNumber : Nat
  isEndOfStream : Bool

/-- `ReadStreamEventsForwardAsync`. -/
def readStreamEventsForward (stream : List α) (start count : Nat) : StreamEventsSlice α :=
  let events := (stream.drop start).take count
  { events
    nextEventNumber := start + events.length
    isEndOfStream := decide (stream.length ≤ start + count) }

/-- `ClientApiConstants.MaxReadSize`. -/
def maxReadSize : Nat := 4096

/-- A page that is not the last one is full. -/
theorem readStreamEventsForward_of_not_end {stream : List α} {start count : Nat}
    (h : ¬ (readStreamEventsForward stream start count).isEndOfStream = true) :
    start + count < stream.length ∧
      (readStreamEventsForward stream start count).nextEventNumber = start + count := by
  simp only [readStreamEventsForward, decide_eq_true_eq, Nat.not_le] at h ⊢
  refine ⟨h, ?_⟩
  rw [List.length_take, List.length_drop]
  omega

/-- `GetEvents` on a stream that nobody appends to meanwhile: page after page until
    the end of the stream. -/
def getEvents (stream : List α) (fromVersion : Nat) : List α :=
  if _h : (readStreamEventsForward stream fromVersion maxReadSize).isEndOfStream = true then
    (readStreamEventsForward stream fromVersion maxReadSize).events
  else
    (readStreamEventsForward stream fromVersion maxReadSize).events ++
      getEvents stream (readStreamEventsForward stream fromVersion maxReadSize).nextEventNumber
termination_by stream.length - fromVersion
decreasing_by
  obtain ⟨hlt, hnext⟩ := readStreamEventsForward_of_not_end _h
  rw [hnext]
  simp only [maxReadSize] at hlt ⊢
  omega

/-- Paging loses and repeats nothing: `GetEvents` reads the tail of the stream. -/
theorem getEvents_eq_drop (stream : List α) (fromVersion : Nat) :
    getEvents stream fromVersion = stream.drop fromVersion := by
  fun_induction getEvents stream fromVersion with
  | case1 start h =>
      simp only [readStreamEventsForward, decide_eq_true_eq] at h ⊢
      exact List.take_of_length_le (by rw [List.length_drop]; omega)
  | case2 start h ih =>
      rw [ih, (readStreamEventsForward_of_not_end h).2, ← List.drop_drop]
      exact List.take_append_drop _ _

end Milde.EventStore
