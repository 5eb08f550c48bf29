/-
  Milde.EventStore.SaveAggregate

  The public methods of EventStore/EventStore/EventStore.cs on one aggregate:
  `SaveAggregate` as the sequence of store calls it awaits, and `UpdateAggregate`.

  `SaveAggregate` is an async method, so other code runs whenever it awaits.  Its
  local state at such a point is the call it waits for (`Awaiting`): `resume` is the
  code that runs when that call has succeeded, up to the next await.  What a
  continuation reads of the aggregate it reads from the live object: the expected
  version after the first await, the changes to publish after the third.
-/
import Milde.Common.GroupBy
import Milde.EventSourcing.History
import Milde.EventStore.Store

namespace Milde.EventStore

open Milde.EventSourcing

variable {Id S P : Type}

-- ============================================================================
-- SaveAggregate
-- ============================================================================

/-- The store call a running `SaveAggregate` awaits: the transaction on `T`, the one
    on `T-{id}`, the one on `T-Ids`, or an append of the event bus with the groups
    that remain to be published after it. -/
inductive Awaiting (Id P : Type) where
  | category (events : List (AggregateEvent Id P))
  | aggregate (events : List (AggregateEvent Id P)) (expectedVersion : Int)
  | ids
  | bus (eventType : ClrType) (events : List (AggregateEvent Id P))
      (rest : List (ClrType × List (AggregateEvent Id P)))
deriving DecidableEq, Repr

/-- `aggregate.Version - events.Count - 1`, an `int` passed as a `long`. -/
def expectedVersion (a : Aggregate Id S P) (events : List (AggregateEvent Id P)) : Int :=
  (a.version - Int32.ofNat events.length - 1).toInt

/-- `group @event by @event.GetType()` of `EventBus.Publish`. -/
def eventsByType (events : List (AggregateEvent Id P)) :
    List (ClrType × List (AggregateEvent Id P)) :=
  groupBy AggregateEvent.type events

/-- The `foreach` of `EventBus.Publish` at its head: the next append, or, when no
    group is left, the return to `SaveAggregate` and its last statement. -/
def publishNext (a : Aggregate Id S P) :
    List (ClrType × List (AggregateEvent Id P)) → Aggregate Id S P × Option (Awaiting Id P)
  | [] => (a.markAsCommited, none)
  | (eventType, events) :: rest => (a, some (.bus eventType events rest))

/-- `SaveAggregate` up to its first await. -/
def beginSave (a : Aggregate Id S P) : Awaiting Id P := .category a.getUncommitedChanges

/-- The awaited call takes effect and `SaveAggregate` runs on to its next await or to
    its end (`none` inside).  `none` outside: the call throws `WrongExpectedVersion`. -/
def resume [DecidableEq Id] (T : String) (drop : Bool) (s : Store Id P) (a : Aggregate Id S P) :
    Awaiting Id P → Option (Store Id P × Aggregate Id S P × Option (Awaiting Id P))
  | .category events =>
      some (s.appendTyped T events, a, some (.aggregate events (expectedVersion a events)))
  | .aggregate events version =>
      (saveEvents (s.aggregate a.id) events version).map fun stream =>
        (s.setAggregate a.id stream, a, some .ids)
  | .ids => some (s.appendId drop a.id, publishNext a (eventsByType a.getUncommitedChanges))
  | .bus eventType events rest =>
      some (s.appendTyped (getStream eventType) events, publishNext a rest)

section Resume

variable [DecidableEq Id] {T : String} {drop : Bool} {s s' : Store Id P}
  {a a' : Aggregate Id S P} {next : Option (Awaiting Id P)}
  {events : List (AggregateEvent Id P)}

/-- The transaction on `T-{id}` was at the expected version. -/
theorem resume_aggregate {version : Int}
    (h : resume T drop s a (.aggregate events version) = some (s', a', next)) :
    ∃ stream, saveEvents (s.aggregate a.id) events version = some stream ∧
      s.setAggregate a.id stream = s' ∧ a = a' ∧ some .ids = next := by
  simp only [resume, Option.map_eq_some_iff] at h
  obtain ⟨stream, hsave, hrest⟩ := h
  cases hrest
  exact ⟨stream, hsave, rfl, rfl, rfl⟩

theorem resume_ids (h : resume T drop s a .ids = some (s', a', next)) :
    s.appendId drop a.id = s' ∧
      publishNext a (eventsByType a.getUncommitedChanges) = (a', next) := by
  simp only [resume, Option.some.injEq, Prod.mk.injEq] at h
  exact h

theorem resume_bus {t : ClrType} {rest : List (ClrType × List (AggregateEvent Id P))}
    (h : resume T drop s a (.bus t events rest) = some (s', a', next)) :
    s.appendTyped (getStream t) events = s' ∧ publishNext a rest = (a', next) := by
  simp only [resume, Option.some.injEq, Prod.mk.injEq] at h
  exact h

/-- All that `SaveAggregate` ever does to its object is `MarkAsCommited`, at its end. -/
theorem resume_agg {call : Awaiting Id P} (h : resume T drop s a call = some (s', a', next)) :
    a' = a ∧ next ≠ none ∨ a' = a.markAsCommited ∧ next = none := by
  have hpub : ∀ groups, publishNext a groups = (a', next) →
      a' = a ∧ next ≠ none ∨ a' = a.markAsCommited ∧ next = none := by
    intro groups hnext
    cases groups with
    | nil =>
        cases hnext
        exact Or.inr ⟨rfl, rfl⟩
    | cons g rest =>
        cases hnext
        exact Or.inl ⟨rfl, by simp⟩
  cases call with
  | category events =>
      cases h
      exact Or.inl ⟨rfl, by simp⟩
  | aggregate events version =>
      obtain ⟨_, -, rfl, rfl, rfl⟩ := resume_aggregate h
      exact Or.inl ⟨rfl, by simp⟩
  | ids => exact hpub _ (resume_ids h).2
  | bus t events rest => exact hpub _ (resume_bus h).2

end Resume

-- ============================================================================
-- UpdateAggregate
-- ============================================================================

/-- `OrderBy(e => e.Version)`. -/
def orderByVersion (events : List (AggregateEvent Id P)) : List (AggregateEvent Id P) :=
  events.mergeSort fun e e' => decide (e.version ≤ e'.version)

/-- `UpdateAggregate` on the stream as `GetEvents` finds it: read on from the object's
    version, sort, apply.  A negative `start` is refused by the client. -/
def updateAggregate [DecidableEq Id] (d : Domain Id S P) (stream : List (AggregateEvent Id P))
    (a : Aggregate Id S P) : Outcome (Aggregate Id S P) :=
  if a.version < 0 then .threw a
  else a.applyEvents d (orderByVersion (getEvents stream a.version.toInt.toNat))

-- ============================================================================
-- The expected version
-- ============================================================================

/-- Where the object has at least as many versions as it has changes, nothing wraps. -/
theorem expectedVersion_eq {a : Aggregate Id S P} {events : List (AggregateEvent Id P)}
    (h : (events.length : Int) ≤ a.version.toInt) :
    expectedVersion a events = a.version.toInt - events.length - 1 := by
  have hlt := Int32.toInt_lt a.version
  rw [expectedVersion, Int32.toInt_sub, Int32.toInt_sub, Int32.toInt_one,
    Int32.toInt_ofNat_of_lt (by omega),
    Int.bmod_eq_of_le (n := a.version.toInt - _) (by omega) (by omega)]
  exact Int.bmod_eq_of_le (by omega) (by omega)

/-- The guard of the optimistic append: the object's version less its changes is the
    number of events it was loaded from. -/
theorem expectedVersion_built (d : TotalDomain Id S P) (id : Id) (sk : Int32)
    (loaded changes : List (AggregateEvent Id P)) :
    expectedVersion (built d id sk loaded changes) changes =
      (Int32.ofNat loaded.length - 1).toInt := by
  rw [expectedVersion, built_version, Int32.ofNat_add]
  congr 1
  grind

/-- In the range of `int` that is the number of the last event it was loaded from. -/
theorem expectedVersion_built_of_lt (d : TotalDomain Id S P) (id : Id) (sk : Int32)
    {loaded changes : List (AggregateEvent Id P)} (h : loaded.length < 2 ^ 31) :
    expectedVersion (built d id sk loaded changes) changes = (loaded.length : Int) - 1 := by
  rw [expectedVersion_built, Int32.toInt_sub, Int32.toInt_ofNat_of_lt h, Int32.toInt_one]
  exact Int.bmod_eq_of_le (by omega) (by omega)

/-- **The append to `T-{id}` is optimistic.** When it is accepted, the object had been
    loaded from the whole stream. -/
theorem saveEvents_built (d : TotalDomain Id S P) (id : Id) (sk : Int32)
    {loaded changes stream stream' : List (AggregateEvent Id P)} (hpre : loaded <+: stream)
    (hshort : stream.length < 2 ^ 31 - 1)
    (h : saveEvents stream changes (expectedVersion (built d id sk loaded changes) changes) =
      some stream') :
    stream = loaded ∧ stream' = loaded ++ changes := by
  have hlen := hpre.length_le
  rw [expectedVersion_built_of_lt d id sk (by omega),
    saveEvents_of_ne_any (by simp only [ExpectedVersion.any]; omega)] at h
  exact AppendLog.appendAt_of_isPrefix hpre h

/-- An object loaded from less than the stream is refused. -/
theorem saveEvents_built_of_stale (d : TotalDomain Id S P) (id : Id) (sk : Int32)
    {loaded changes stream : List (AggregateEvent Id P)} (hlt : loaded.length < stream.length)
    (hshort : stream.length < 2 ^ 31 - 1) :
    saveEvents stream changes (expectedVersion (built d id sk loaded changes) changes) = none := by
  rw [expectedVersion_built_of_lt d id sk (by omega),
    saveEvents_of_ne_any (by simp only [ExpectedVersion.any]; omega)]
  exact AppendLog.appendAt_of_stale hlt

/-- An object loaded from the whole stream is accepted. -/
theorem saveEvents_built_self (d : TotalDomain Id S P) (id : Id) (sk : Int32)
    {loaded changes : List (AggregateEvent Id P)} (hshort : loaded.length < 2 ^ 31) :
    saveEvents loaded changes (expectedVersion (built d id sk loaded changes) changes) =
      some (loaded ++ changes) := by
  rw [expectedVersion_built_of_lt d id sk hshort,
    saveEvents_of_ne_any (by simp only [ExpectedVersion.any]; omega)]
  exact AppendLog.appendAt_self loaded changes

-- ============================================================================
-- Rehydration
-- ============================================================================

theorem mem_orderByVersion {events : List (AggregateEvent Id P)} {e : AggregateEvent Id P} :
    e ∈ orderByVersion events ↔ e ∈ events := List.mem_mergeSort

theorem length_orderByVersion (events : List (AggregateEvent Id P)) :
    (orderByVersion events).length = events.length := List.length_mergeSort events

/-- Events in version order stay as they are. -/
theorem orderByVersion_of_numbered {start : Nat} {events : List (AggregateEvent Id P)}
    (h : Numbered AggregateEvent.version Int32.ofNat start events)
    (hlen : start + events.length ≤ 2 ^ 31) : orderByVersion events = events := by
  apply List.mergeSort_of_pairwise
  refine h.pairwise (fun v v' : Int32 => decide (v ≤ v') = true) ?_
  intro i j _ hij hj
  simp only [decide_eq_true_eq, Int32.le_iff_toInt_le]
  rw [Int32.toInt_ofNat_of_lt (by omega), Int32.toInt_ofNat_of_lt (by omega)]
  omega

/-- **Rehydration.** Updating an object without changes replays exactly the events of
    the stream it has not seen; they end up in its uncommitted changes. -/
theorem updateAggregate_built [DecidableEq Id] (d : TotalDomain Id S P) {id : Id} (sk : Int32)
    {loaded tail : List (AggregateEvent Id P)} (h : History id (loaded ++ tail))
    (hshort : (loaded ++ tail).length < 2 ^ 31 - 1) :
    updateAggregate d.domain (loaded ++ tail) (built d id sk loaded []) =
      .returned (built d id sk loaded tail) := by
  rw [List.length_append] at hshort
  have hv : (built d id sk loaded []).version.toInt = (loaded.length : Int) := by
    rw [built_version]
    exact Int32.toInt_ofNat_of_lt (by simp; omega)
  have hnn : ¬ (built d id sk loaded []).version < 0 := by
    rw [Int32.lt_iff_toInt_lt, hv, Int32.toInt_zero]
    omega
  have htail : orderByVersion tail = tail :=
    orderByVersion_of_numbered (Numbered.append_iff.mp h.numbered).2 (by omega)
  rw [updateAggregate, if_neg hnn, getEvents_eq_drop, hv, Int.toNat_natCast,
    List.drop_left, htail]
  have h' : History id (loaded ++ [] ++ tail) := by simpa using h
  simpa using applyEvents_built d sk h'

end Milde.EventStore
