/-
  Milde.AggregateCache.Durability

  One service process whose saves may fail at any call.

  `Process.Sound` is what is left of the agreement of cache and store then: a cached object
  is built from a beginning of its stream and from its changes.  A save that fails after its
  append leaves an object that still counts what was appended among its changes
  (`Process.Carries`), so that the stream is longer than the object takes it to be.  Such an
  object is frozen: every save of it is refused, its stream stays as it is, and with every
  attempt the stream `T` takes in its changes once more.
-/
import Milde.AggregateCache.Initialize

namespace Milde.AggregateCache

open Milde.EventSourcing Milde.EventStore

variable {Id S P : Type}

/-- `Save` returns. -/
def Process.saves [DecidableEq Id] (p : Process Id S P) (T : String) (drop : Bool)
    (fails : SaveCall → Bool) (a : Aggregate Id S P) : Bool :=
  match saveAggregate T drop fails p.store a with
  | .returned _ => !fails .redis
  | .threw _ => false

/-- The handler of the request returns: the aggregate is there, no event is rejected, and
    `Save` returns. -/
def Process.returns [DecidableEq Id] (d : Domain Id S P) (T : String) (p : Process Id S P) :
    Request Id P → Bool
  | .change id events fails drop =>
      match p.get id with
      | none => false
      | some a =>
          match raiseAll d a events with
          | .threw _ => false
          | .returned a => p.saves T drop fails a
  | .create id shardKey events fails drop =>
      match raiseAll d (Aggregate.new d id shardKey) events with
      | .threw _ => false
      | .returned a => p.saves T drop fails a

/-- The stream of `id` has more events than its cached object counts as stored: the version
    that the object expects is behind the stream. -/
def Process.Frozen (p : Process Id S P) (id : Id) : Prop :=
  ∃ a, p.memory id = some a ∧
    expectedVersion a a.changes + 1 < (p.store.aggregate id).length

/-- What the stream of `id` has beyond what `a` counts as stored. -/
def Process.beyond (p : Process Id S P) (id : Id) (a : Aggregate Id S P) :
    List (AggregateEvent Id P) :=
  (p.store.aggregate id).drop (expectedVersion a a.changes + 1).toNat

/-- `a` is built from `loaded` and its changes, and after `loaded` the stream has `tail`. -/
structure CachedBy (d : TotalDomain Id S P) (store : Store Id P) (id : Id)
    (a : Aggregate Id S P) (sk : Int32) (loaded tail changes : List (AggregateEvent Id P)) :
    Prop where
  object : a = built d id sk loaded changes
  stream : store.aggregate id = loaded ++ tail
  history : History id (loaded ++ changes)

structure Process.Sound (p : Process Id S P) (d : TotalDomain Id S P) : Prop where
  streams : ∀ id, History id (p.store.aggregate id)
  cached : ∀ id a, p.memory id = some a → p.store.aggregate id ≠ [] ∧
    ∃ sk loaded tail changes, CachedBy d p.store id a sk loaded tail changes

/-- What a stream has beyond what its cached object was loaded from are the first of the
    object's changes. -/
def Process.Carries (p : Process Id S P) (d : TotalDomain Id S P) : Prop :=
  ∀ id a, p.memory id = some a → ∃ sk loaded tail changes,
    CachedBy d p.store id a sk loaded tail changes ∧ tail <+: changes

/-- The request does something to the aggregate `id`. -/
def Request.target : Request Id P → Id
  | .change id _ _ _ => id
  | .create id _ _ _ _ => id

/-- A new object has raised an event before it is saved. -/
def Request.Begins : Request Id P → Prop
  | .change _ _ _ _ => True
  | .create _ _ events _ _ => events ≠ []

-- ============================================================================
-- How a save of a cached object ends
-- ============================================================================

section Save

variable [DecidableEq Id] {d : TotalDomain Id S P} {T : String} {p p' : Process Id S P}
  {id : Id} {a : Aggregate Id S P} {sk : Int32} {loaded tail changes : List (AggregateEvent Id P)}

omit [DecidableEq Id] in
theorem publish_extends (fails : SaveCall → Bool) (s : Store Id P)
    (groups : List (ClrType × List (AggregateEvent Id P))) :
    Extends s (publish fails s groups).object := by
  induction groups generalizing s with
  | nil => exact Extends.refl s
  | cons g rest ih =>
      rw [publish]
      split
      · exact Extends.refl s
      · exact (Extends.appendTyped s _ _).trans (ih _)

/-- A save that does not fail at its first call has appended its batch to `T`, and else it
    appends to the streams only. -/
theorem saveAggregate_extends (T : String) (drop : Bool) (fails : SaveCall → Bool)
    (s : Store Id P) (a : Aggregate Id S P) :
    Extends (if fails .category then s else s.appendTyped T a.changes)
      (saveAggregate T drop fails s a).object.1 := by
  simp only [saveAggregate, Aggregate.getUncommitedChanges]
  split
  · exact Extends.refl s
  split
  · exact Extends.refl _
  split
  · exact Extends.refl _
  · rename_i stream hsave
    have hset : Extends (s.appendTyped T a.changes)
        ((s.appendTyped T a.changes).setAggregate a.id stream) := by
      refine ⟨fun id => ?_, fun _ => List.prefix_rfl⟩
      by_cases hid : id = a.id
      · subst hid
        rw [Store.setAggregate_self, saveEvents_eq_some hsave]
        exact List.prefix_append _ _
      · rw [Store.setAggregate_ne _ hid]
    split
    · exact hset
    · have hids : ∀ s' : Store Id P, Extends s' (s'.appendId drop a.id) := fun s' =>
        ⟨fun id => by rw [Store.appendId_aggregate], fun name => by rw [Store.appendId_typed]⟩
      have hpublish := publish_extends fails
        (((s.appendTyped T a.changes).setAggregate a.id stream).appendId drop a.id)
        (eventsByType a.changes)
      have hall := (hset.trans (hids _)).trans hpublish
      split
      · rename_i s' hpub
        rw [hpub] at hall
        exact hall
      · rename_i s' hpub
        rw [hpub] at hall
        exact hall

theorem Process.save_extends (p : Process Id S P) (T : String) (drop : Bool)
    (fails : SaveCall → Bool) (a : Aggregate Id S P) :
    Extends (if fails .category then p.store else p.store.appendTyped T a.changes)
      (p.save T drop fails a).1.store := by
  have h := saveAggregate_extends T drop fails p.store a
  cases hsave : saveAggregate T drop fails p.store a with
  | threw r =>
      rw [hsave] at h
      simp only [Process.save, hsave]
      exact h
  | returned r =>
      rw [hsave] at h
      simp only [Process.save, hsave]
      by_cases hredis : fails .redis = true
      · rw [Process.cache, if_pos hredis]
        exact h
      · rw [Process.cache, if_neg hredis]
        exact h

omit [DecidableEq Id] in
/-- All of the object's changes have been stored. -/
theorem CachedBy.left {store store' : Store Id P}
    (h : CachedBy d store id a sk loaded [] changes)
    (hstream : store'.aggregate id = loaded ++ changes) :
    CachedBy d store' id a sk loaded changes changes :=
  ⟨h.object, hstream, h.history⟩

omit [DecidableEq Id] in
/-- … and the object was marked as committed. -/
theorem CachedBy.marked {store store' : Store Id P}
    (h : CachedBy d store id a sk loaded [] changes)
    (hstream : store'.aggregate id = loaded ++ changes) :
    CachedBy d store' id (built d id sk (loaded ++ changes) []) sk (loaded ++ changes) [] [] where
  object := rfl
  stream := by
    rw [List.append_nil]
    exact hstream
  history := by
    rw [List.append_nil]
    exact h.history

omit [DecidableEq Id] in
/-- The object expects the stream to end where it was loaded. -/
theorem CachedBy.expects (h : CachedBy d p.store id a sk loaded tail changes)
    (hshort : (p.store.aggregate id).length < 2 ^ 31 - 1) :
    expectedVersion a a.changes = (loaded.length : Int) - 1 := by
  rw [h.stream, List.length_append] at hshort
  rw [h.object, built_changes]
  exact expectedVersion_built_of_lt d id sk (by omega)

omit [DecidableEq Id] in
/-- The rest of the stream is what it does not count as stored. -/
theorem CachedBy.beyond_eq (h : CachedBy d p.store id a sk loaded tail changes)
    (hshort : (p.store.aggregate id).length < 2 ^ 31 - 1) : p.beyond id a = tail := by
  have hversion : (expectedVersion a a.changes + 1).toNat = loaded.length := by
    rw [h.expects hshort]
    omega
  rw [Process.beyond, hversion, h.stream, List.drop_left]

omit [DecidableEq Id] in
theorem CachedBy.frozen_iff (h : CachedBy d p.store id a sk loaded tail changes)
    (ha : p.memory id = some a) (hshort : (p.store.aggregate id).length < 2 ^ 31 - 1) :
    p.Frozen id ↔ tail ≠ [] := by
  have hversion := h.expects hshort
  have hlen := congrArg List.length h.stream
  rw [List.length_append] at hlen
  rw [← List.length_pos_iff]
  refine ⟨?_, fun hpos => ⟨a, ha, by omega⟩⟩
  rintro ⟨a', ha', hlt⟩
  obtain rfl : a = a' := Option.some.inj (ha.symm.trans ha')
  omega

/-- **How a save of a cached object ends.** It is refused or fails before its append, and
    the object keeps its changes; or its append comes through and a later call fails; or it
    returns, and the object that is cached has no changes. -/
theorem CachedBy.save_cases (h : CachedBy d p.store id a sk loaded tail changes)
    (hshort : (p.store.aggregate id).length < 2 ^ 31 - 1) (T : String) (drop : Bool)
    (fails : SaveCall → Bool) :
    (p.saves T drop fails a = false ∧ ¬ (tail = [] ∧ Stores fails) ∧
      ∃ store, store.aggregate = p.store.aggregate ∧
        p.save T drop fails a = ({ p with store }, a)) ∨
    (tail = [] ∧ Stores fails ∧ ∃ store,
      store.aggregate = Function.update p.store.aggregate id (loaded ++ changes) ∧
      ((p.saves T drop fails a = false ∧ LateFailure fails changes ∧
          p.save T drop fails a = ({ p with store }, a)) ∨
        (p.saves T drop fails a = false ∧ ¬ LateFailure fails changes ∧ fails .redis = true ∧
          p.save T drop fails a = ({ p with store }, built d id sk (loaded ++ changes) [])) ∨
        (p.saves T drop fails a = true ∧ ¬ LateFailure fails changes ∧ fails .redis = false ∧
          ∃ redis, p.save T drop fails a =
            ({ store, redis, memory :=
                 Function.update p.memory id (some (built d id sk (loaded ++ changes) [])) },
              built d id sk (loaded ++ changes) [])))) := by
  have hid : a.id = id := by rw [h.object, built_id]
  have hchanges : a.changes = changes := by rw [h.object, built_changes]
  have hobject := h.object
  have hstream := h.stream
  have hlen : (loaded ++ tail).length < 2 ^ 31 - 1 := by rw [← hstream]; exact hshort
  have haccept : saveEvents (p.store.aggregate a.id) a.changes (expectedVersion a a.changes) ≠
      none ↔ tail = [] := by
    rw [hid, hstream, hchanges]
    rw [show a = built d id sk loaded changes from hobject]
    exact saveEvents_built_iff d id sk hlen
  rcases saveAggregate_cases fails T drop p.store a with
    ⟨store, hsave, hagg, hwhy⟩ | ⟨store, hcategory, haggregate, hsome, hagg, hsave⟩
  · refine Or.inl ⟨by rw [Process.saves, hsave], ?_, store, hagg, by
      simp only [Process.save, hsave]⟩
    rintro ⟨hnil, hcategory, haggregate⟩
    rcases hwhy with hwhy | hwhy | hwhy
    · rw [hcategory] at hwhy
      cases hwhy
    · rw [haggregate] at hwhy
      cases hwhy
    · exact haccept.mpr hnil hwhy
  · have hnil : tail = [] := haccept.mp (by rw [hsome]; exact Option.some_ne_none _)
    subst hnil
    rw [List.append_nil] at hstream
    rw [hid, hchanges, hstream] at hagg
    rw [hchanges] at hsave
    refine Or.inr ⟨rfl, ⟨hcategory, haggregate⟩, store, hagg, ?_⟩
    rcases hsave with ⟨hsave, hlate⟩ | ⟨hsave, hlate⟩
    · exact Or.inl ⟨by rw [Process.saves, hsave], hlate, by simp only [Process.save, hsave]⟩
    · have hmarked : a.markAsCommited = built d id sk (loaded ++ changes) [] := by
        rw [hobject, markAsCommited_built]
      rw [hmarked] at hsave
      right
      by_cases hredis : fails .redis = true
      · refine Or.inl ⟨?_, hlate, hredis, ?_⟩
        · rw [Process.saves, hsave, hredis]
          rfl
        · simp only [Process.save, hsave, Process.cache, if_pos hredis]
      · rw [Bool.not_eq_true] at hredis
        refine Or.inr ⟨?_, hlate, hredis, Function.update p.redis id
          (some (built d id sk (loaded ++ changes) []).view), ?_⟩
        · rw [Process.saves, hsave, hredis]
          rfl
        · simp only [Process.save, hsave, Process.cache, hredis, Bool.false_eq_true, if_false,
            built_id]

/-- Where the append comes through, the stream is all of the object. -/
theorem CachedBy.save_stream (h : CachedBy d p.store id a sk loaded [] changes)
    (hshort : (p.store.aggregate id).length < 2 ^ 31 - 1) (T : String) (drop : Bool)
    {fails : SaveCall → Bool} (hstores : Stores fails) :
    (p.save T drop fails a).1.store.aggregate id = loaded ++ changes := by
  rcases h.save_cases hshort T drop fails with ⟨-, hnot, -⟩ | ⟨-, -, store, hagg, hsave⟩
  · exact absurd ⟨rfl, hstores⟩ hnot
  · have hstream : store.aggregate id = loaded ++ changes := by rw [hagg, Function.update_self]
    rcases hsave with ⟨-, -, hsave⟩ | ⟨-, -, -, hsave⟩ | ⟨-, -, -, redis, hsave⟩ <;>
      rw [hsave] <;> exact hstream

/-- **When a save of a cached object returns.** -/
theorem CachedBy.saves_iff (h : CachedBy d p.store id a sk loaded tail changes)
    (hshort : (p.store.aggregate id).length < 2 ^ 31 - 1) (T : String) (drop : Bool)
    (fails : SaveCall → Bool) :
    p.saves T drop fails a = true ↔
      tail = [] ∧ Stores fails ∧ ¬ LateFailure fails changes ∧ fails .redis = false := by
  rcases h.save_cases hshort T drop fails with
    ⟨hnot, hwhy, -⟩ | ⟨hnil, hstores, store, -,
      ⟨hnot, hlate, -⟩ | ⟨hnot, -, hredis, -⟩ | ⟨hsaves, hlate, hredis, -⟩⟩
  · rw [hnot]
    exact iff_of_false Bool.false_ne_true fun hall => hwhy ⟨hall.1, hall.2.1⟩
  · rw [hnot]
    exact iff_of_false Bool.false_ne_true fun hall => hall.2.2.1 hlate
  · rw [hnot, hredis]
    exact iff_of_false Bool.false_ne_true fun hall => Bool.false_ne_true hall.2.2.2.symm
  · exact iff_of_true hsaves ⟨hnil, hstores, hlate, hredis⟩

/-- A save that returns was of an object loaded from the whole stream, has stored all of
    it, and the object that it leaves is cached. -/
theorem CachedBy.saved (h : CachedBy d p.store id a sk loaded tail changes)
    (hshort : (p.store.aggregate id).length < 2 ^ 31 - 1) {drop : Bool}
    {fails : SaveCall → Bool} (hsaves : p.saves T drop fails a = true) :
    tail = [] ∧ (p.save T drop fails a).2 = built d id sk (loaded ++ changes) [] ∧
      (p.save T drop fails a).1.memory id = some (built d id sk (loaded ++ changes) []) ∧
      (p.save T drop fails a).1.store.aggregate id = loaded ++ changes ∧
      History id (loaded ++ changes) := by
  rcases h.save_cases hshort T drop fails with
    ⟨hnot, -⟩ | ⟨rfl, -, store, hagg, ⟨hnot, -⟩ | ⟨hnot, -⟩ | ⟨-, -, -, redis, hsave⟩⟩
  · rw [hsaves] at hnot
    cases hnot
  · rw [hsaves] at hnot
    cases hnot
  · rw [hsaves] at hnot
    cases hnot
  · rw [hsave]
    exact ⟨rfl, rfl, Function.update_self .., by rw [hagg, Function.update_self], h.history⟩

end Save

-- ============================================================================
-- Requests
-- ============================================================================

section Requests

variable [DecidableEq Id] {d : TotalDomain Id S P} {T : String} {p p' : Process Id S P}
  {id : Id} {a : Aggregate Id S P} {sk : Int32} {loaded tail changes : List (AggregateEvent Id P)}

omit [DecidableEq Id] in
theorem CachedBy.congr {store store' : Store Id P}
    (h : CachedBy d store id a sk loaded tail changes)
    (hsame : store'.aggregate id = store.aggregate id) :
    CachedBy d store' id a sk loaded tail changes :=
  ⟨h.object, hsame.trans h.stream, h.history⟩

/-- Commands add to the changes. -/
theorem CachedBy.raiseAll {store : Store Id P}
    (h : CachedBy d store id a sk loaded tail changes) (events : List (ClrType × P)) :
    ∃ raised a', raised.map AggregateEvent.type = events.map Prod.fst ∧
      AggregateCache.raiseAll d.domain a events = .returned a' ∧
      CachedBy d store id a' sk loaded tail (changes ++ raised) := by
  obtain ⟨raised, htypes, hhist, hraise⟩ := raiseAll_built d sk h.history events
  rw [← h.object] at hraise
  exact ⟨raised, _, htypes, hraise, rfl, h.stream, hhist⟩

/-- One stream and its object change. -/
theorem Process.Sound.update (h : p.Sound d) {id : Id}
    (haggregate : ∀ id', id' ≠ id → p'.store.aggregate id' = p.store.aggregate id')
    (hmemory : ∀ id', id' ≠ id → p'.memory id' = p.memory id')
    (hhist : History id (p'.store.aggregate id))
    (hcached : ∀ a, p'.memory id = some a → p'.store.aggregate id ≠ [] ∧
      ∃ sk loaded tail changes, CachedBy d p'.store id a sk loaded tail changes) :
    p'.Sound d where
  streams := by
    intro id'
    by_cases heq : id' = id
    · subst heq
      exact hhist
    · rw [haggregate id' heq]
      exact h.streams id'
  cached := by
    intro id' a ha
    by_cases heq : id' = id
    · subst heq
      exact hcached a ha
    · rw [hmemory id' heq] at ha
      obtain ⟨hne, sk, loaded, tail, changes, hby⟩ := h.cached id' a ha
      rw [haggregate id' heq]
      exact ⟨hne, sk, loaded, tail, changes, hby.congr (haggregate id' heq)⟩

omit [DecidableEq Id] in
theorem Process.Inv.sound (h : p.Inv d) : p.Sound d where
  streams := h.streams
  cached := by
    intro id a ha
    obtain ⟨hne, sk, loaded, hbuilt, hstream⟩ := h.present id a ha
    refine ⟨hne, sk, loaded, a.changes, a.changes, hbuilt, hstream, ?_⟩
    rw [← hstream]
    exact h.streams id

/-- What a save leaves behind, however it ends: all other aggregates as they were, the stream
    as it was or all of the object, and the object as it was built. -/
structure Kept (d : TotalDomain Id S P) (p p' : Process Id S P) (id : Id)
    (a : Aggregate Id S P) (sk : Int32) (events : List (AggregateEvent Id P)) : Prop where
  aggregate : ∀ id', id' ≠ id → p'.store.aggregate id' = p.store.aggregate id'
  memory : ∀ id', id' ≠ id → p'.memory id' = p.memory id'
  stream : p'.store.aggregate id = p.store.aggregate id ∨ p'.store.aggregate id = events
  grows : p.store.aggregate id <+: p'.store.aggregate id
  cached : ∃ loaded tail changes, loaded ++ changes = events ∧
    CachedBy d p'.store id a sk loaded tail changes
  self : p'.memory id = p.memory id ∨ p'.memory id = some a ∧ p'.store.aggregate id = events

theorem CachedBy.kept (h : CachedBy d p.store id a sk loaded tail changes)
    (hshort : (p.store.aggregate id).length < 2 ^ 31 - 1) (T : String) (drop : Bool)
    (fails : SaveCall → Bool) :
    Kept d p (p.save T drop fails a).1 id (p.save T drop fails a).2 sk (loaded ++ changes) := by
  rcases h.save_cases hshort T drop fails with
    ⟨-, -, store, hagg, hsave⟩ | ⟨rfl, -, store, hagg, hsave⟩
  · rw [hsave]
    refine ⟨fun id' _ => congrFun hagg id', fun _ _ => rfl, Or.inl (congrFun hagg id), ?_,
      ⟨loaded, tail, changes, rfl, h.congr (congrFun hagg id)⟩, Or.inl rfl⟩
    show p.store.aggregate id <+: store.aggregate id
    rw [hagg]
  · have hstream : store.aggregate id = loaded ++ changes := by rw [hagg, Function.update_self]
    have hother : ∀ id', id' ≠ id → store.aggregate id' = p.store.aggregate id' := by
      intro id' hid
      rw [hagg, Function.update_of_ne hid]
    have hgrows : p.store.aggregate id <+: store.aggregate id := by
      rw [hstream, h.stream, List.append_nil]
      exact List.prefix_append _ _
    have hleft := h.left hstream
    have hmarked := h.marked hstream
    rcases hsave with ⟨-, -, hsave⟩ | ⟨-, -, -, hsave⟩ | ⟨-, -, -, redis, hsave⟩ <;> rw [hsave]
    · exact ⟨hother, fun _ _ => rfl, Or.inr hstream, hgrows, ⟨_, _, _, rfl, hleft⟩, Or.inl rfl⟩
    · exact ⟨hother, fun _ _ => rfl, Or.inr hstream, hgrows,
        ⟨_, _, _, List.append_nil _, hmarked⟩, Or.inl rfl⟩
    · exact ⟨hother, fun _ hid => Function.update_of_ne hid _ _, Or.inr hstream, hgrows,
        ⟨_, _, _, List.append_nil _, hmarked⟩, Or.inr ⟨Function.update_self .., hstream⟩⟩

omit [DecidableEq Id] in
/-- The stream is a history again. -/
theorem Kept.history {events : List (AggregateEvent Id P)} (h : Kept d p p' id a sk events)
    (hstream : History id (p.store.aggregate id)) (hevents : History id events) :
    History id (p'.store.aggregate id) := by
  rcases h.stream with heq | heq
  · rw [heq]
    exact hstream
  · rw [heq]
    exact hevents

@[simp] theorem Process.mutate_store (p : Process Id S P) (id : Id) (a : Aggregate Id S P) :
    (p.mutate id a).store = p.store := rfl

@[simp] theorem Process.mutate_memory (p : Process Id S P) (id : Id) (a : Aggregate Id S P) :
    (p.mutate id a).memory id = some a := Function.update_self ..

theorem Process.mutate_memory_ne (p : Process Id S P) {id id' : Id} (h : id' ≠ id)
    (a : Aggregate Id S P) : (p.mutate id a).memory id' = p.memory id' :=
  Function.update_of_ne h ..

/-- What a request for a change does to an object that is built. -/
theorem CachedBy.step_change {events : List (ClrType × P)} {fails : SaveCall → Bool}
    {drop : Bool} (h : CachedBy d p.store id a sk loaded tail changes)
    (ha : p.memory id = some a)
    (hstep : p.step d.domain T (.change id events fails drop) = some p') :
    ∃ raised a', raised.map AggregateEvent.type = events.map Prod.fst ∧
      CachedBy d p.store id a' sk loaded tail (changes ++ raised) ∧
      p.returns d.domain T (.change id events fails drop) = p.saves T drop fails a' ∧
      p' = (p.save T drop fails a').1.mutate id (p.save T drop fails a').2 := by
  obtain ⟨raised, a', htypes, hraise, hby⟩ := h.raiseAll events
  simp only [Process.step, Process.get, ha, hraise, Option.some.injEq] at hstep
  refine ⟨raised, a', htypes, hby, ?_, hstep.symm⟩
  simp only [Process.returns, Process.get, ha, hraise]

/-- What a request for a new object does: it saves an object that is built from nothing. -/
theorem CachedBy.of_create {events : List (ClrType × P)} {fails : SaveCall → Bool} {drop : Bool}
    (hstep : p.step d.domain T (.create id sk events fails drop) = some p') :
    p.memory id = none ∧ p.store.aggregate id = [] ∧ ∃ raised, (events ≠ [] → raised ≠ []) ∧
      CachedBy d p.store id (built d id sk [] raised) sk [] [] raised ∧
      p' = (p.save T drop fails (built d id sk [] raised)).1 := by
  obtain ⟨hnone, hnil, raised, htypes, hhist, hsave⟩ := step_create hstep
  refine ⟨hnone, hnil, raised, fun hevents hraised => hevents ?_, ⟨rfl, hnil, hhist⟩, hsave⟩
  rw [hraised, List.map_nil] at htypes
  exact List.map_eq_nil_iff.mp htypes.symm

/-- A request in the range of `int` leaves a sound process, whatever fails in it. -/
theorem Process.Sound.step (h : p.Sound d) {r : Request Id P} (hrange : r.InRange p)
    (hbegins : r.Begins) (hstep : p.step d.domain T r = some p') : p'.Sound d := by
  cases r with
  | change id events fails drop =>
      cases ha : p.memory id with
      | none =>
          obtain rfl := step_change_none ha hstep
          exact h
      | some a =>
          obtain ⟨hne, sk, loaded, tail, changes, hby⟩ := h.cached id a ha
          obtain ⟨raised, a', -, hby', -, rfl⟩ := hby.step_change ha hstep
          have hlen := hrange id
          have hkept := hby'.kept (by omega) T drop fails
          obtain ⟨loaded', tail', changes', -, hby''⟩ := hkept.cached
          refine h.update hkept.aggregate
            (fun id' hid => (Process.mutate_memory_ne _ hid _).trans (hkept.memory id' hid))
            (hkept.history (h.streams id) hby'.history) ?_
          intro b hb
          obtain rfl := Option.some.inj ((Process.mutate_memory ..).symm.trans hb)
          exact ⟨hkept.grows.ne_nil hne, sk, loaded', tail', changes', hby''⟩
  | create id sk events fails drop =>
      obtain ⟨hnone, -, raised, hraised, hby, rfl⟩ := CachedBy.of_create hstep
      have hlen := hrange id
      have hkept := hby.kept (by omega) T drop fails
      obtain ⟨loaded', tail', changes', -, hby'⟩ := hkept.cached
      refine h.update hkept.aggregate hkept.memory
        (hkept.history (h.streams id) hby.history) ?_
      intro b hb
      rcases hkept.self with hself | ⟨hself, hstream⟩
      · rw [hself, hnone] at hb
        cases hb
      · obtain rfl := Option.some.inj (hself.symm.trans hb)
        exact ⟨by rw [hstream]; exact hraised hbegins, sk, loaded', tail', changes', hby'⟩

end Requests

-- ============================================================================
-- Frozen objects
-- ============================================================================

section Frozen

variable [DecidableEq Id] {d : TotalDomain Id S P} {T : String} {p p' : Process Id S P}
  {id : Id}

/-- A request for another aggregate changes nothing of this one. -/
theorem Process.Sound.step_other (h : p.Sound d) {r : Request Id P} (hrange : r.InRange p)
    (htarget : r.target ≠ id) (hstep : p.step d.domain T r = some p') :
    p'.store.aggregate id = p.store.aggregate id ∧ p'.memory id = p.memory id := by
  cases r with
  | change id' events fails drop =>
      have htarget : id ≠ id' := Ne.symm htarget
      cases ha : p.memory id' with
      | none =>
          obtain rfl := step_change_none ha hstep
          exact ⟨rfl, rfl⟩
      | some a =>
          obtain ⟨-, sk, loaded, tail, changes, hby⟩ := h.cached id' a ha
          obtain ⟨raised, a', -, hby', -, rfl⟩ := hby.step_change ha hstep
          have hlen := hrange id'
          have hkept := hby'.kept (by omega) T drop fails
          exact ⟨hkept.aggregate id htarget,
            (Process.mutate_memory_ne _ htarget _).trans (hkept.memory id htarget)⟩
  | create id' sk events fails drop =>
      have htarget : id ≠ id' := Ne.symm htarget
      obtain ⟨-, -, raised, -, hby, rfl⟩ := CachedBy.of_create hstep
      have hlen := hrange id'
      have hkept := hby.kept (by omega) T drop fails
      exact ⟨hkept.aggregate id htarget, hkept.memory id htarget⟩

/-- A request for a frozen aggregate does not return, and its stream stays as it is. -/
theorem Process.Sound.step_frozen (h : p.Sound d) {r : Request Id P} (hrange : r.InRange p)
    (hfrozen : p.Frozen id) (hstep : p.step d.domain T r = some p') :
    p'.Frozen id ∧ p'.store.aggregate id = p.store.aggregate id ∧
      (r.target = id → p.returns d.domain T r = false) := by
  have hlen := hrange id
  by_cases htarget : r.target = id
  · obtain ⟨a, ha, hlt⟩ := hfrozen
    cases r with
    | change id' events fails drop =>
        obtain rfl : id' = id := htarget
        obtain ⟨-, sk, loaded, tail, changes, hby⟩ := h.cached id' a ha
        have htail : tail ≠ [] := (hby.frozen_iff ha (by omega)).mp ⟨a, ha, hlt⟩
        obtain ⟨raised, a', -, hby', hreturns, rfl⟩ := hby.step_change ha hstep
        rcases hby'.save_cases (by omega) T drop fails with
          ⟨hsaves, -, store, hagg, hsave⟩ | ⟨hnil, -⟩
        · rw [hsave]
          have hsame : store.aggregate id' = p.store.aggregate id' := congrFun hagg id'
          refine ⟨((hby'.congr hsame).frozen_iff (Process.mutate_memory ..) ?_).mpr htail,
            hsame, fun _ => hreturns.trans hsaves⟩
          rw [Process.mutate_store, hsame]
          omega
        · exact absurd hnil htail
    | create id' sk events fails drop =>
        obtain rfl : id' = id := htarget
        obtain ⟨hnone, -⟩ := step_create hstep
        rw [hnone] at ha
        cases ha
  · obtain ⟨hstream, hmemory⟩ := h.step_other hrange htarget hstep
    refine ⟨?_, hstream, fun heq => absurd heq htarget⟩
    obtain ⟨a, ha, hlt⟩ := hfrozen
    exact ⟨a, by rw [hmemory]; exact ha, by rw [hstream]; exact hlt⟩

/-- In a run of any length. -/
theorem Process.Sound.run (h : p.Sound d) {rs : List (Request Id P)}
    (hrange : Transition.Along (Process.step d.domain T) (fun p r => r.InRange p ∧ r.Begins) p rs)
    (hrun : Transition.run (Process.step d.domain T) p rs = some p') : p'.Sound d :=
  Transition.run_invariant_along (I := fun p => Process.Sound p d)
    (fun _ _ _ h hrange hstep => h.step hrange.1 hrange.2 hstep) h hrange hrun

theorem Process.Sound.run_frozen (h : p.Sound d) {rs : List (Request Id P)}
    (hrange : Transition.Along (Process.step d.domain T) (fun p r => r.InRange p ∧ r.Begins) p rs)
    (hfrozen : p.Frozen id)
    (hrun : Transition.run (Process.step d.domain T) p rs = some p') :
    p'.Frozen id ∧ p'.store.aggregate id = p.store.aggregate id ∧
      Transition.Along (Process.step d.domain T)
        (fun q r => r.target = id → q.returns d.domain T r = false) p rs := by
  induction rs generalizing p with
  | nil =>
      cases hrun
      exact ⟨hfrozen, rfl, trivial⟩
  | cons r rs ih =>
      obtain ⟨q, hq, hrun⟩ := Transition.run_cons_eq_some.mp hrun
      obtain ⟨⟨hinrange, hbegins⟩, hrest⟩ := (Transition.along_cons hq).mp hrange
      obtain ⟨hfrozen', hsame, hreturns⟩ := h.step_frozen hinrange hfrozen hq
      obtain ⟨hlast, hsame', halong⟩ := ih (h.step hinrange hbegins hq) hrest hfrozen' hrun
      exact ⟨hlast, hsame'.trans hsame, (Transition.along_cons hq).mpr ⟨hreturns, halong⟩⟩

/-- **A frozen aggregate stays frozen.** Whatever requests follow, for it or for others, and
    whatever fails in them: none for it returns, and its stream is never appended to. -/
theorem frozen_forever {store : Store Id P} {rs rs' : List (Request Id P)}
    (hstreams : ∀ id, History id (store.aggregate id))
    (hrange : Transition.Along (Process.step d.domain T) (fun p r => r.InRange p ∧ r.Begins)
      (Process.initialized d store) (rs ++ rs'))
    (hrun : Transition.run (Process.step d.domain T) (Process.initialized d store) rs = some p)
    (hfrozen : p.Frozen id)
    (hrun' : Transition.run (Process.step d.domain T) p rs' = some p') :
    p'.Frozen id ∧ p'.store.aggregate id = p.store.aggregate id ∧
      Transition.Along (Process.step d.domain T)
        (fun q r => r.target = id → q.returns d.domain T r = false) p rs' := by
  obtain ⟨hfirst, hlast⟩ := Transition.along_append hrun hrange
  exact ((Process.inv_initialized hstreams).sound.run hfirst hrun).run_frozen hlast hfrozen hrun'

omit [DecidableEq Id] in
/-- What fails late, in terms of the events' classes. -/
theorem lateFailure_iff_types {fails : SaveCall → Bool} {changes : List (AggregateEvent Id P)} :
    LateFailure fails changes ↔
      fails .ids = true ∨ ∃ t ∈ changes.map AggregateEvent.type, fails (.bus t) = true := by
  have hmem : ∀ t, (∃ g, (t, g) ∈ eventsByType changes) ↔
      t ∈ changes.map AggregateEvent.type := by
    intro t
    simp [eventsByType, mem_groupBy]
  rw [LateFailure]
  refine or_congr_right ⟨?_, ?_⟩
  · rintro ⟨g, hg, hfail⟩
    exact ⟨g.1, (hmem g.1).mp ⟨g.2, hg⟩, hfail⟩
  · rintro ⟨t, ht, hfail⟩
    obtain ⟨g, hg⟩ := (hmem t).mpr ht
    exact ⟨(t, g), hg, hfail⟩

end Frozen

-- ============================================================================
-- What an attempt on a frozen object does to the stream `T`
-- ============================================================================

section Category

variable [DecidableEq Id] {d : TotalDomain Id S P} {T : String} {p p' p'' : Process Id S P}
  {id : Id}

/-- Every stored event is in `T`. -/
def Categorized (T : String) (store : Store Id P) : Prop :=
  ∀ id, store.aggregate id ⊆ store.typed T

/-- A class whose stream `T` has an event twice cannot be replayed from it. -/
theorem inMemoryInitialize_eq_none {store : Store Id P} {e : AggregateEvent Id P}
    (hshort : (store.typed T).length < 2 ^ 31 - 1) (htwice : [e, e].Sublist (store.typed T))
    (shardKey : Id → Int32) : inMemoryInitialize d.domain T shardKey store = none := by
  cases hmemory : inMemoryInitialize d.domain T shardKey store with
  | none => rfl
  | some memory =>
      exfalso
      have hevents : [e, e].Sublist (eventsOf e.aggregateId (store.typed T)) := by
        have := htwice.filter fun e' => decide (e'.aggregateId = e.aggregateId)
        simpa [eventsOf] using this
      have hne : eventsOf e.aggregateId (store.typed T) ≠ [] := by
        intro hnil
        rw [hnil] at hevents
        cases hevents
      obtain ⟨a, ha⟩ := replayGroups_returned hmemory _ (mem_groups_typed.mpr ⟨hne, rfl⟩)
      have hsorted : [e, e].Sublist (orderByVersion (eventsOf e.aggregateId (store.typed T))) :=
        List.pair_sublist_mergeSort
          (fun _ _ _ h h' => decide_eq_true (Int32.le_trans (of_decide_eq_true h)
            (of_decide_eq_true h')))
          (fun a b => by simpa using Int32.le_total a.version b.version)
          (decide_eq_true (Int32.le_refl _)) hevents
      have hown : ∀ e' ∈ orderByVersion (eventsOf e.aggregateId (store.typed T)),
          e'.aggregateId = e.aggregateId := by
        intro e' he'
        have := List.mem_filter.mp (mem_orderByVersion.mp he')
        simpa using this.2
      have hlen : (orderByVersion (eventsOf e.aggregateId (store.typed T))).length <
          2 ^ 31 - 1 := by
        rw [length_orderByVersion]
        exact Nat.lt_of_le_of_lt (List.length_filter_le ..) hshort
      have hhist : History e.aggregateId
          ([] ++ orderByVersion (eventsOf e.aggregateId (store.typed T))) :=
        History.of_applyEvents d _ History.nil hown (by rw [List.nil_append]; exact hlen) ha
      -- in a history the versions increase
      have hlt := ((hhist.pairwise_version hlen).sublist hsorted)
      simp only [List.pairwise_cons, List.mem_singleton, forall_eq] at hlt
      exact Int32.lt_irrefl hlt.1

omit [DecidableEq Id] in
theorem Categorized.sublist {store : Store Id P} (h : Categorized T store)
    {e : AggregateEvent Id P} (he : e ∈ store.aggregate id) : [e].Sublist (store.typed T) :=
  List.singleton_sublist.mpr (h id he)

/-- A save keeps every stored event in `T`. -/
theorem CachedBy.categorized {a : Aggregate Id S P} {sk : Int32}
    {loaded tail changes : List (AggregateEvent Id P)}
    (hby : CachedBy d p.store id a sk loaded tail changes) (h : Categorized T p.store)
    (hshort : (p.store.aggregate id).length < 2 ^ 31 - 1) (drop : Bool)
    (fails : SaveCall → Bool) : Categorized T (p.save T drop fails a).1.store := by
  have hext := p.save_extends T drop fails a
  have hkept := hby.kept hshort T drop fails
  intro id' e he
  have hold : e ∈ p.store.aggregate id' → e ∈ (p.save T drop fails a).1.store.typed T := by
    intro hmem
    have htyped := (hext.typed T).subset
    split at htyped
    · exact htyped (h id' hmem)
    · rw [Store.appendTyped_typed_self] at htyped
      exact htyped (List.mem_append_left _ (h id' hmem))
  by_cases hid : id' = id
  · subst hid
    rcases hby.save_cases hshort T drop fails with
      ⟨-, -, store, hagg, hsave⟩ | ⟨rfl, hstores, -⟩
    · rw [hsave] at he
      exact hold (by rw [← hagg]; exact he)
    · -- the batch went to `T` first
      rw [hby.save_stream hshort T drop hstores, List.mem_append] at he
      rcases he with he | he
      · refine hold ?_
        rw [hby.stream, List.append_nil]
        exact he
      · have htyped := (hext.typed T).subset
        rw [hstores.1, if_neg Bool.false_ne_true, Store.appendTyped_typed_self] at htyped
        refine htyped (List.mem_append_right _ ?_)
        rw [hby.object, built_changes]
        exact he
  · rw [hkept.aggregate id' hid] at he
    exact hold he

/-- Requests append to the streams only. -/
theorem Process.step_extends {d : Domain Id S P} {r : Request Id P}
    (hstep : p.step d T r = some p') : Extends p.store p'.store := by
  have hsave : ∀ drop fails a, Extends p.store (p.save T drop fails a).1.store := by
    intro drop fails a
    have hext := p.save_extends T drop fails a
    split at hext
    · exact hext
    · exact (Extends.appendTyped _ _ _).trans hext
  cases r with
  | change id events fails drop =>
      simp only [Process.step] at hstep
      split at hstep
      · cases hstep
        exact Extends.refl _
      · split at hstep
        · cases hstep
          exact Extends.refl _
        · cases hstep
          exact hsave ..
  | create id sk events fails drop =>
      simp only [Process.step] at hstep
      split at hstep
      · split at hstep
        · cases hstep
          exact Extends.refl _
        · cases hstep
          exact hsave ..
      · cases hstep

theorem Process.run_extends {d : Domain Id S P} {rs : List (Request Id P)}
    (hrun : Transition.run (Process.step d T) p rs = some p') : Extends p.store p'.store :=
  Transition.run_invariant (I := fun q => Extends p.store q.store)
    (fun _ _ _ h hstep => h.trans (Process.step_extends hstep)) (Extends.refl _) hrun

theorem Process.Sound.categorized_step (h : p.Sound d) {r : Request Id P} (hrange : r.InRange p)
    (hcategory : Categorized T p.store) (hstep : p.step d.domain T r = some p') :
    Categorized T p'.store := by
  cases r with
  | change id events fails drop =>
      have hlen := hrange id
      cases ha : p.memory id with
      | none =>
          obtain rfl := step_change_none ha hstep
          exact hcategory
      | some a =>
          obtain ⟨-, sk, loaded, tail, changes, hby⟩ := h.cached id a ha
          obtain ⟨raised, a', -, hby', -, rfl⟩ := hby.step_change ha hstep
          exact hby'.categorized hcategory (by omega) drop fails
  | create id sk events fails drop =>
      have hlen := hrange id
      obtain ⟨-, -, raised, -, hby, rfl⟩ := CachedBy.of_create hstep
      exact hby.categorized hcategory (by omega) drop fails

omit [DecidableEq Id] in
theorem Process.Inv.carries (h : p.Inv d) : p.Carries d := by
  intro id a ha
  obtain ⟨-, sk, loaded, hbuilt, hstream⟩ := h.present id a ha
  refine ⟨sk, loaded, a.changes, a.changes, ⟨hbuilt, hstream, ?_⟩, List.prefix_rfl⟩
  rw [← hstream]
  exact h.streams id

/-- What a save leaves stored of an object that keeps its changes are its changes. -/
theorem CachedBy.save_carries {a : Aggregate Id S P} {sk : Int32}
    {loaded tail changes : List (AggregateEvent Id P)}
    (h : CachedBy d p.store id a sk loaded tail changes) (hcarried : tail <+: changes)
    (hshort : (p.store.aggregate id).length < 2 ^ 31 - 1) (T : String) (drop : Bool)
    (fails : SaveCall → Bool) : ∃ sk loaded tail changes,
      CachedBy d (p.save T drop fails a).1.store id (p.save T drop fails a).2 sk loaded tail
        changes ∧ tail <+: changes := by
  rcases h.save_cases hshort T drop fails with
    ⟨-, -, store, hagg, hsave⟩ | ⟨rfl, -, store, hagg, hsave⟩
  · rw [hsave]
    exact ⟨sk, loaded, tail, changes, h.congr (congrFun hagg id), hcarried⟩
  · have hstream : store.aggregate id = loaded ++ changes := by rw [hagg, Function.update_self]
    rcases hsave with ⟨-, -, hsave⟩ | ⟨-, -, -, hsave⟩ | ⟨-, -, -, redis, hsave⟩ <;> rw [hsave]
    · exact ⟨sk, _, _, _, h.left hstream, List.prefix_rfl⟩
    · exact ⟨sk, _, _, _, h.marked hstream, List.prefix_rfl⟩
    · exact ⟨sk, _, _, _, h.marked hstream, List.prefix_rfl⟩

omit [DecidableEq Id] in
/-- One object and its stream change. -/
theorem Process.Carries.update (h : p.Carries d)
    (haggregate : ∀ id', id' ≠ id → p'.store.aggregate id' = p.store.aggregate id')
    (hmemory : ∀ id', id' ≠ id → p'.memory id' = p.memory id')
    (hself : ∀ a, p'.memory id = some a → ∃ sk loaded tail changes,
      CachedBy d p'.store id a sk loaded tail changes ∧ tail <+: changes) : p'.Carries d := by
  intro id' a ha
  by_cases heq : id' = id
  · subst heq
    exact hself a ha
  · rw [hmemory id' heq] at ha
    obtain ⟨sk, loaded, tail, changes, hby, hcarried⟩ := h id' a ha
    exact ⟨sk, loaded, tail, changes, hby.congr (haggregate id' heq), hcarried⟩

theorem Process.Carries.step (h : p.Carries d) {r : Request Id P} (hrange : r.InRange p)
    (hstep : p.step d.domain T r = some p') : p'.Carries d := by
  cases r with
  | change id events fails drop =>
      cases ha : p.memory id with
      | none =>
          obtain rfl := step_change_none ha hstep
          exact h
      | some a =>
          obtain ⟨sk, loaded, tail, changes, hby, hcarried⟩ := h id a ha
          obtain ⟨raised, a', -, hby', -, rfl⟩ := hby.step_change ha hstep
          have hlen := hrange id
          have hkept := hby'.kept (by omega) T drop fails
          refine h.update hkept.aggregate
            (fun id' hid => (Process.mutate_memory_ne _ hid _).trans (hkept.memory id' hid)) ?_
          intro b hb
          obtain rfl := Option.some.inj ((Process.mutate_memory ..).symm.trans hb)
          exact hby'.save_carries (hcarried.trans (List.prefix_append _ _)) (by omega) T drop fails
  | create id sk events fails drop =>
      obtain ⟨hnone, -, raised, -, hby, rfl⟩ := CachedBy.of_create hstep
      have hlen := hrange id
      have hkept := hby.kept (by omega) T drop fails
      refine h.update hkept.aggregate hkept.memory ?_
      intro b hb
      rcases hkept.self with hself | ⟨hself, -⟩
      · rw [hself, hnone] at hb
        cases hb
      · obtain rfl := Option.some.inj (hself.symm.trans hb)
        exact hby.save_carries List.nil_prefix (by omega) T drop fails

/-- **A retry on a frozen aggregate spoils `T`.** Once the first call of such a save has gone
    through, every event that is stored and that the object still lists among its changes is
    in `T` twice, and `InMemoryAggregateCache.Initialize` throws on the store, whatever is
    done later. -/
theorem frozen_retry_spoils_category {store : Store Id P} {rs rs' : List (Request Id P)}
    {events : List (ClrType × P)} {fails : SaveCall → Bool} {drop : Bool}
    (hstreams : ∀ id, History id (store.aggregate id)) (hcategory : Categorized T store)
    (hrange : Transition.Along (Process.step d.domain T) (fun p r => r.InRange p ∧ r.Begins)
      (Process.initialized d store) (rs ++ [.change id events fails drop]))
    (hrun : Transition.run (Process.step d.domain T) (Process.initialized d store) rs = some p)
    (hfrozen : p.Frozen id) (hcall : fails .category = false)
    (hstep : p.step d.domain T (.change id events fails drop) = some p')
    (hrun' : Transition.run (Process.step d.domain T) p' rs' = some p'')
    (hshort : (p''.store.typed T).length < 2 ^ 31 - 1) :
    (∃ a, p.memory id = some a ∧ p.beyond id a ≠ [] ∧ p.beyond id a <+: a.changes ∧
      ∀ e ∈ p.beyond id a, [e, e].Sublist (p''.store.typed T)) ∧
    ∀ shardKey : Id → Int32, inMemoryInitialize d.domain T shardKey p''.store = none := by
  obtain ⟨hfirst, ⟨hinrange, -⟩, -⟩ := Transition.along_append hrun hrange
  have hinv := Process.inv_initialized (d := d) hstreams
  obtain ⟨⟨hsound, hcarries⟩, hcategorized⟩ :
      (p.Sound d ∧ p.Carries d) ∧ Categorized T p.store :=
    Transition.run_invariant_along
      (I := fun p => (Process.Sound p d ∧ Process.Carries p d) ∧ Categorized T p.store)
      (fun _ _ _ h hrange hstep => ⟨⟨h.1.1.step hrange.1 hrange.2 hstep,
        h.1.2.step hrange.1 hstep⟩, h.1.1.categorized_step hrange.1 h.2 hstep⟩)
      ⟨⟨hinv.sound, hinv.carries⟩, hcategory⟩ hfirst hrun
  have hlen := hinrange id
  obtain ⟨a, ha, hlt⟩ := hfrozen
  obtain ⟨sk, loaded, tail, changes, hby, hcarried⟩ := hcarries id a ha
  have hbeyond : p.beyond id a = tail := hby.beyond_eq (by omega)
  have htail : tail ≠ [] := (hby.frozen_iff ha (by omega)).mp ⟨a, ha, hlt⟩
  obtain ⟨raised, a', -, hby', -, rfl⟩ := hby.step_change ha hstep
  have htwice : ∀ e ∈ tail, [e, e].Sublist (p''.store.typed T) := by
    intro e he
    -- the event is in `T` and comes in again
    have hstream : e ∈ p.store.aggregate id := by
      rw [hby.stream]
      exact List.mem_append_right _ he
    have hchanges : [e].Sublist a'.changes := by
      rw [hby'.object, built_changes]
      exact List.singleton_sublist.mpr (List.mem_append_left _ (hcarried.subset he))
    have htyped : [e, e].Sublist ((p.store.appendTyped T a'.changes).typed T) := by
      rw [Store.appendTyped_typed_self]
      exact (hcategorized.sublist hstream).append hchanges
    have hext := p.save_extends T drop fails a'
    rw [hcall, if_neg Bool.false_ne_true] at hext
    have hlater := (hext.typed T).trans ((Process.run_extends hrun').typed T)
    exact htyped.trans hlater.sublist
  refine ⟨⟨a, ha, ?_, ?_, ?_⟩, fun shardKey => ?_⟩
  · rw [hbeyond]
    exact htail
  · rw [hbeyond, hby.object, built_changes]
    exact hcarried
  · rw [hbeyond]
    exact htwice
  · obtain ⟨e, he⟩ := List.exists_mem_of_ne_nil tail htail
    exact inMemoryInitialize_eq_none hshort (htwice e he) shardKey

end Category

section Users

open Milde.UserManagement

/-- A user is created, and the append to `User-Ids` throws when its age is changed. -/
def failsAfterAppend : List (Request Nat UserEvent) :=
  [createUser fun _ => false, changeUserAge fun c => c = .ids]

def savedUser : Process Nat UserState UserEvent :=
  (noUsers.step userDomain.domain "User" (createUser fun _ => false)).getD noUsers

def frozenUser : Process Nat UserState UserEvent :=
  (Transition.run (Process.step userDomain.domain "User") noUsers failsAfterAppend).getD noUsers

theorem frozen_frozenUser : frozenUser.Frozen 7 := ⟨_, rfl, by decide⟩

theorem along_failsAfterAppend (rs : List (Request Nat UserEvent))
    (h : Transition.Along (Process.step userDomain.domain "User")
      (fun p r => r.InRange p ∧ r.Begins) frozenUser rs) :
    Transition.Along (Process.step userDomain.domain "User") (fun p r => r.InRange p ∧ r.Begins)
      noUsers (failsAfterAppend ++ rs) := by
  refine (Transition.along_cons rfl).mpr ⟨⟨fun id => ?_, by simp [createUser, Request.Begins]⟩,
    (Transition.along_cons rfl).mpr ⟨⟨fun id => ?_, trivial⟩, h⟩⟩
  · show 0 + 1 < _
    decide
  · by_cases hid : id = 7
    · subst hid
      decide
    · show (Function.update (fun _ => []) 7 _ id).length + 1 < _
      rw [Function.update_of_ne hid]
      decide

theorem inRange_frozenUser (events : List (ClrType × UserEvent)) (fails : SaveCall → Bool)
    (h : events.length < 3) : (Request.change 7 events fails false).InRange frozenUser := by
  intro id
  have hlen : (frozenUser.store.aggregate id).length ≤ 2 := by
    by_cases hid : id = 7
    · subst hid
      decide
    · show (Function.update (Function.update (fun _ => []) 7 _) 7 _ id).length ≤ 2
      rw [Function.update_of_ne hid, Function.update_of_ne hid]
      decide
  show (frozenUser.store.aggregate id).length + events.length < _
  omega

theorem history_noUsers (id : Nat) :
    History id ((Store.empty : Store Nat UserEvent).aggregate id) :=
  History.nil

/-- Every later change of the user fails, and nothing of it is stored. -/
theorem frozen_forever_changeUserAge :
    ∃ p, Transition.run (Process.step userDomain.domain "User") frozenUser
        [changeUserAge fun _ => false] = some p ∧
      p.store.aggregate 7 = frozenUser.store.aggregate 7 ∧
      frozenUser.returns userDomain.domain "User" (changeUserAge fun _ => false) = false := by
  have hrun : Transition.run (Process.step userDomain.domain "User") noUsers failsAfterAppend =
      some frozenUser := rfl
  have hnext : Transition.run (Process.step userDomain.domain "User") frozenUser
      [changeUserAge fun _ => false] = some _ := rfl
  have hrange := along_failsAfterAppend [changeUserAge fun _ => false]
    ((Transition.along_cons rfl).mpr ⟨⟨inRange_frozenUser _ _ (by decide), trivial⟩, trivial⟩)
  obtain ⟨-, hsame, halong⟩ :=
    frozen_forever history_noUsers hrange hrun frozen_frozenUser hnext
  exact ⟨_, hnext, hsame, halong.1 rfl⟩

/-- After one more attempt the change of the age that is stored is in `User` twice, and the
    in-memory cache can no longer be filled from it. -/
theorem frozen_retry_spoils_user :
    ∃ p e, frozenUser.step userDomain.domain "User" (changeUserAge fun _ => false) = some p ∧
      e ∈ frozenUser.store.aggregate 7 ∧ [e, e].Sublist (p.store.typed "User") ∧
      ∀ shardKey, inMemoryInitialize userDomain.domain "User" shardKey p.store = none := by
  have hrun : Transition.run (Process.step userDomain.domain "User") noUsers failsAfterAppend =
      some frozenUser := rfl
  have hrange := along_failsAfterAppend [changeUserAge fun _ => false]
    ((Transition.along_cons rfl).mpr ⟨⟨inRange_frozenUser _ _ (by decide), trivial⟩, trivial⟩)
  have hcategory : Categorized "User" (Store.empty : Store Nat UserEvent) :=
    fun _ => List.nil_subset _
  obtain ⟨⟨a, -, hne, -, htwice⟩, hthrows⟩ := frozen_retry_spoils_category history_noUsers
    hcategory hrange hrun frozen_frozenUser rfl rfl (Transition.run_nil _) (by decide)
  obtain ⟨e, he⟩ := List.exists_mem_of_ne_nil _ hne
  exact ⟨_, e, rfl, List.drop_subset _ _ he, htwice e he, hthrows⟩

end Users

end Milde.AggregateCache
