/-
  Milde.AggregateCache.Rehydration

  What an object lists as uncommitted after it has been read back from its stream.

  Replay goes through `ApplyEvent`, which records every event it takes in, and neither
  `EventStore.UpdateAggregate` nor `InMemoryAggregateCache.Initialize` calls
  `MarkAsCommited`.  So an object that had something to replay has it among its changes,
  and a save of it offers the stream what the stream already has (`rehydrated_iff`).
-/
import Milde.AggregateCache.Initialize
import Milde.EventStore.RetriedSave

namespace Milde.AggregateCache

open Milde.EventSourcing Milde.EventStore

variable {Id S P : Type} [DecidableEq Id]

/-- No uncommitted changes, and a save made right away succeeds and appends no event to the
    stream `T`, a stream `T-{id}` or a stream of the event bus. -/
structure NothingToSave (T : String) (store : Store Id P) (a : Aggregate Id S P) : Prop where
  commited : a.getUncommitedChanges = []
  saves : ∀ drop, ∃ s a', saveAggregate T drop noFailure store a = .returned (s, a') ∧
    s.typed = store.typed ∧ s.aggregate = store.aggregate

/-- `UpdateAggregate` ends and leaves nothing to save. -/
def UpdatesClean (d : Domain Id S P) (T : String) (store : Store Id P) (a : Aggregate Id S P) :
    Prop :=
  ∃ a', updateAggregate d (store.aggregate a.id) a = .returned a' ∧ NothingToSave T store a'

/-- `InMemoryAggregateCache.Initialize` ends and none of what it puts in the cache has
    anything to save. -/
def InitializesClean (d : Domain Id S P) (T : String) (store : Store Id P)
    (shardKey : Id → Int32) : Prop :=
  ∃ memory, inMemoryInitialize d T shardKey store = some memory ∧
    ∀ id a, memory id = some a → NothingToSave T store a

-- ============================================================================
-- Replay records
-- ============================================================================

section Replay

variable {d : Domain Id S P} {a a' : Aggregate Id S P} {events : List (AggregateEvent Id P)}

/-- Own events that are taken in join the changes. -/
theorem applyEvents_changes (hown : ∀ e ∈ events, e.aggregateId = a.id)
    (h : a.applyEvents d events = .returned a') :
    a'.id = a.id ∧ a'.changes = a.changes ++ events := by
  induction events generalizing a with
  | nil =>
      cases h
      exact ⟨rfl, (List.append_nil _).symm⟩
  | cons e events ih =>
      cases he : a.applyEvent d e with
      | threw b => simp [Aggregate.applyEvents, he] at h
      | returned b =>
          have hid := hown e List.mem_cons_self
          obtain ⟨-, -, hb_id, -, hb_changes⟩ := Aggregate.applyEvent_eq_returned hid he
          rw [Aggregate.applyEvents_cons_of_returned he] at h
          obtain ⟨h_id, h_changes⟩ := ih
            (fun e' he' => (hown e' (List.mem_cons_of_mem e he')).trans hb_id.symm) h
          exact ⟨h_id.trans hb_id, by rw [h_changes, hb_changes]; simp⟩

end Replay

-- ============================================================================
-- Saving without changes
-- ============================================================================

section Save

variable {T : String} {store : Store Id P} {a : Aggregate Id S P}

/-- A save without changes goes through iff the object's version is the number of stored
    events, and then it writes nothing but an entry of `T-Ids`. -/
theorem nothingToSave_iff (hversion : 0 ≤ a.version.toInt) :
    NothingToSave T store a ↔ a.getUncommitedChanges = [] ∧
      a.version.toInt = (store.aggregate a.id).length := by
  have hexpected : a.changes = [] → expectedVersion a a.changes = a.version.toInt - 1 := by
    intro hnil
    rw [hnil, expectedVersion_eq (by simpa using hversion), List.length_nil]
    omega
  refine ⟨fun h => ⟨h.commited, ?_⟩, ?_⟩
  · have hnil : a.changes = [] := h.commited
    obtain ⟨s, a', hsave, -⟩ := h.saves false
    rcases saveAggregate_cases noFailure T false store a with ⟨_, hthrew, -⟩ |
      ⟨_, -, -, haccept, -⟩
    · rw [hthrew] at hsave
      cases hsave
    · have hany : a.version.toInt - 1 ≠ ExpectedVersion.any := by
        simp only [ExpectedVersion.any]
        omega
      rw [hexpected hnil, saveEvents_of_ne_any hany] at haccept
      have hlast := (AppendLog.appendAt_eq_some.mp haccept).1
      omega
  · rintro ⟨hnil, hlength⟩
    have hnil : a.changes = [] := hnil
    refine ⟨hnil, fun drop => ?_⟩
    have hmatch : Matches store a := by
      show a.version.toInt = (store.aggregate a.id).length + (a.changes.length : Int)
      rw [hnil, hlength]
      simp
    obtain ⟨s, hsave⟩ := hmatch.saves (T := T) drop
    obtain ⟨-, hagg, -, htyped⟩ := saveAggregate_returned hsave
    refine ⟨s, _, hsave, funext fun name => ?_, ?_⟩
    · rw [htyped, hnil]
      simp [publishedTo, eventsByType, groupBy, Store.appendTyped]
    · rw [hagg, hnil, List.append_nil, Function.update_eq_self]

end Save

-- ============================================================================
-- UpdateAggregate and InMemoryAggregateCache.Initialize
-- ============================================================================

section Rehydrated

variable {d : Domain Id S P} {T : String} {store : Store Id P}

/-- `UpdateAggregate` leaves nothing to save on an object that had nothing to read. -/
theorem updatesClean_iff (hstreams : ∀ id, History id (store.aggregate id))
    {a : Aggregate Id S P} (hnil : a.getUncommitedChanges = []) :
    UpdatesClean d T store a ↔ a.version.toInt = (store.aggregate a.id).length := by
  have hnil : a.changes = [] := hnil
  have htail : getEvents (store.aggregate a.id) a.version.toInt.toNat =
      (store.aggregate a.id).drop a.version.toInt.toNat := getEvents_eq_drop _ _
  refine ⟨?_, fun hlength => ?_⟩
  · rintro ⟨a', hupdate, hclean⟩
    by_cases hneg : a.version < 0
    · rw [updateAggregate, if_pos hneg] at hupdate
      cases hupdate
    rw [updateAggregate, if_neg hneg, htail] at hupdate
    rw [Int32.lt_iff_toInt_lt, Int32.toInt_zero, Int.not_lt] at hneg
    have hown : ∀ e ∈ orderByVersion ((store.aggregate a.id).drop a.version.toInt.toNat),
        e.aggregateId = a.id := fun e he =>
      (hstreams a.id).own e (List.mem_of_mem_drop (mem_orderByVersion.mp he))
    -- what was read is among the changes, so nothing was read
    obtain ⟨-, hchanges⟩ := applyEvents_changes hown hupdate
    have hread : orderByVersion ((store.aggregate a.id).drop a.version.toInt.toNat) = [] := by
      rw [hnil, List.nil_append] at hchanges
      exact hchanges.symm.trans hclean.commited
    rw [hread] at hupdate
    obtain rfl : a = a' := Outcome.returned.inj hupdate
    exact ((nothingToSave_iff hneg).mp hclean).2
  · have hnn : 0 ≤ a.version.toInt := by omega
    have hneg : ¬ a.version < 0 := by
      rw [Int32.lt_iff_toInt_lt, Int32.toInt_zero]
      omega
    refine ⟨a, ?_, (nothingToSave_iff hnn).mpr ⟨hnil, hlength⟩⟩
    rw [updateAggregate, if_neg hneg, htail, hlength, Int.toNat_natCast, List.drop_length,
      List.eq_nil_of_length_eq_zero (length_orderByVersion [])]
    rfl

/-- The groups that are replayed end up in the cache with their events as changes. -/
theorem replayGroups_changes {shardKey : Id → Int32}
    {groups : List (Id × List (AggregateEvent Id P))}
    (hgroups : ∀ g ∈ groups, g.2 ≠ [] ∧ ∀ e ∈ g.2, e.aggregateId = g.1)
    {memory memory' : Id → Option (Aggregate Id S P)}
    (h : replayGroups d shardKey memory groups = some memory')
    (hmemory : ∀ id a, memory id = some a → a.changes ≠ []) :
    (∀ id a, memory' id = some a → a.changes ≠ []) ∧
      ∀ id, (memory id).isSome ∨ id ∈ groups.map Prod.fst → (memory' id).isSome := by
  induction groups generalizing memory with
  | nil =>
      cases h
      exact ⟨hmemory, fun id hid => hid.resolve_right (by simp)⟩
  | cons g groups ih =>
      obtain ⟨hne, hown⟩ := hgroups g List.mem_cons_self
      simp only [replayGroups] at h
      split at h
      swap
      · cases h
      rename_i a ha
      obtain ⟨hid, hchanges⟩ := applyEvents_changes
        (fun e he => hown e (mem_orderByVersion.mp he)) ha
      have hid : a.id = g.1 := hid
      have ha_ne : a.changes ≠ [] := by
        have hlength := congrArg List.length hchanges
        rw [List.length_append, length_orderByVersion] at hlength
        have hpos := List.length_pos_iff.mpr hne
        exact List.length_pos_iff.mp (by omega)
      obtain ⟨hall, hsome⟩ := ih (fun g' hg' => hgroups g' (List.mem_cons_of_mem g hg')) h (by
        intro id b hb
        by_cases heq : id = a.id
        · subst heq
          rw [Function.update_self] at hb
          cases hb
          exact ha_ne
        · rw [Function.update_of_ne heq] at hb
          exact hmemory id b hb)
      refine ⟨hall, fun id hid' => hsome id ?_⟩
      by_cases heq : id = a.id
      · subst heq
        exact Or.inl (by rw [Function.update_self]; rfl)
      · rw [Function.update_of_ne heq]
        apply hid'.imp_right
        intro hmem
        rw [List.map_cons, List.mem_cons] at hmem
        exact hmem.resolve_left fun h' => heq (h'.trans hid.symm)

/-- `InMemoryAggregateCache.Initialize` leaves nothing to save when there is nothing to
    replay. -/
theorem initializesClean_iff (shardKey : Id → Int32) :
    InitializesClean d T store shardKey ↔ store.typed T = [] := by
  have hread : getEvents (store.typed T) 0 = store.typed T := getEvents_eq_drop _ _
  refine ⟨?_, fun hempty => ?_⟩
  · rintro ⟨memory, hinit, hclean⟩
    rw [inMemoryInitialize, hread] at hinit
    obtain ⟨hall, hsome⟩ := replayGroups_changes (fun g hg => ⟨(group_spec hg).1,
      fun e he => ((group_spec hg).2 e he).2⟩) hinit (fun _ _ h => by cases h)
    apply List.eq_nil_iff_forall_not_mem.mpr
    intro e he
    have hkey : e.aggregateId ∈
        (groupBy AggregateEvent.aggregateId (store.typed T)).map Prod.fst :=
      List.mem_map.mpr ⟨(e.aggregateId, _), mem_groupBy.mpr ⟨⟨e, he, rfl⟩, rfl⟩, rfl⟩
    obtain ⟨a, ha⟩ := Option.isSome_iff_exists.mp (hsome _ (Or.inr hkey))
    exact hall _ a ha (hclean _ a ha).commited
  · refine ⟨fun _ => none, ?_, fun _ _ h => by cases h⟩
    rw [inMemoryInitialize, hread, hempty]
    rfl

/-- **Rehydration leaves nothing to save** on an object that has already seen its whole
    stream, and in a cache that is filled from an empty stream `T`; never otherwise. -/
theorem rehydrated_iff (d : Domain Id S P) (T : String)
    (hstreams : ∀ id, History id (store.aggregate id)) :
    (∀ a : Aggregate Id S P, a.getUncommitedChanges = [] →
      (UpdatesClean d T store a ↔ a.version.toInt = (store.aggregate a.id).length)) ∧
    ∀ shardKey, InitializesClean d T store shardKey ↔ store.typed T = [] :=
  ⟨fun _ hnil => updatesClean_iff hstreams hnil, initializesClean_iff⟩

end Rehydrated

section Users

open Milde.UserManagement

/-- The store after one save of a new user. -/
def createdStore : Store Nat UserEvent :=
  (saveAggregate "User" false noFailure Store.empty createdUser).object.1

theorem createdStore_streams (id : Nat) : History id (createdStore.aggregate id) := by
  have hnil : History 7 ([] ++ [] : List (AggregateEvent Nat UserEvent)) := History.nil
  have hhist : History 7 ([] ++ createdUser.changes) := hnil.nextEvent userDomain 41 _ _
  by_cases hid : id = 7
  · subst hid
    exact hhist
  · show History id (Function.update (fun _ => []) 7 createdUser.changes id)
    rw [Function.update_of_ne hid]
    exact History.nil

/-- The object that made the save has seen the event. -/
theorem rehydrated_createdUser :
    UpdatesClean userDomain.domain "User" createdStore createdUser.markAsCommited :=
  ((rehydrated_iff userDomain.domain "User" createdStore_streams).1 _ rfl).mpr (by decide)

/-- Another process reads the user back: a new object and `UpdateAggregate`, or
    `InMemoryAggregateCache.Initialize`.  Both times the stored event is uncommitted. -/
theorem rehydrated_fails_createdUser :
    (Aggregate.new userDomain.domain 7 5).getUncommitedChanges = [] ∧
      ¬ UpdatesClean userDomain.domain "User" createdStore (Aggregate.new userDomain.domain 7 5) ∧
      ¬ InitializesClean userDomain.domain "User" createdStore fun _ => 5 := by
  have hread : ∀ n, getEvents createdUser.changes n = createdUser.changes.drop n :=
    getEvents_eq_drop _
  have horder : orderByVersion createdUser.changes = createdUser.changes :=
    List.mergeSort_singleton _
  refine ⟨rfl, ?_, ?_⟩
  · rintro ⟨a, hupdate, hclean⟩
    have hstart : updateAggregate userDomain.domain (createdStore.aggregate 7)
        (Aggregate.new userDomain.domain 7 5) =
        (Aggregate.new userDomain.domain 7 5).applyEvents userDomain.domain
          (orderByVersion (getEvents createdUser.changes 0)) := rfl
    rw [hread, List.drop_zero, horder] at hstart
    obtain rfl := Outcome.returned.inj (hstart.symm.trans hupdate)
    exact absurd hclean.commited (by decide)
  · rintro ⟨memory, hinit, hclean⟩
    have hstart : inMemoryInitialize userDomain.domain "User" (fun _ => 5) createdStore =
        replayGroups userDomain.domain (fun _ => 5) (fun _ => none)
          (groupBy AggregateEvent.aggregateId (getEvents createdUser.changes 0)) := rfl
    rw [hread, List.drop_zero] at hstart
    have hgroups : groupBy AggregateEvent.aggregateId createdUser.changes =
        [(7, createdUser.changes)] := by decide
    rw [hgroups] at hstart
    simp only [replayGroups, horder] at hstart
    obtain rfl := Option.some.inj (hstart.symm.trans hinit)
    exact absurd (hclean 7 _ (Function.update_self ..)).commited (by decide)

end Users

end Milde.AggregateCache
