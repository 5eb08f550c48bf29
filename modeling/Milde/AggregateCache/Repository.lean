/-
  Milde.AggregateCache.Repository

  One service process: `AggregateRepository` over the composite `AggregateCache`
  (EventSourcing/Aggregates/AggregateRepository.cs, AggregateCache/AggregateCache.cs),
  serving requests one after another.

  The in-memory cache hands out the object it holds, so what a request does to the
  object is what the next `Get` sees, saved or not.  A request gets an object, or makes
  a new one, raises events on it and saves it; `fails` says which of the calls inside
  `Save` throw.
-/
import Milde.EventStore.SequentialSave
import Milde.UserManagement.User

namespace Milde.AggregateCache

open Milde.EventSourcing Milde.EventStore

variable {Id S P : Type}

/-- The streams, the snapshots in Redis and the live objects in memory. -/
structure Process (Id S P : Type) where
  store : Store Id P
  redis : Id → Option (View S)
  memory : Id → Option (Aggregate Id S P)

/-- A request: the aggregate, the events it raises, and which calls of its save throw. -/
inductive Request (Id P : Type) where
  | change (id : Id) (events : List (ClrType × P)) (fails : SaveCall → Bool) (drop : Bool)
  | create (id : Id) (shardKey : Int32) (events : List (ClrType × P)) (fails : SaveCall → Bool)
      (drop : Bool)

def Request.events : Request Id P → List (ClrType × P)
  | change _ events _ _ => events
  | create _ _ events _ _ => events

/-- The commands of a request, one event each. -/
def raiseAll [DecidableEq Id] (d : Domain Id S P) :
    Aggregate Id S P → List (ClrType × P) → Outcome (Aggregate Id S P)
  | a, [] => .returned a
  | a, (type, payload) :: rest =>
      match a.applyEvent d (a.nextEvent type payload) with
      | .returned a => raiseAll d a rest
      | .threw a => .threw a

namespace Process

variable [DecidableEq Id]

/-- `Get`: the cached object or null. -/
def get (p : Process Id S P) (id : Id) : Option (Aggregate Id S P) := p.memory id

/-- `AggregateCache.SaveAggregate`: the snapshot goes to Redis, the object to memory. -/
def cache (fails : SaveCall → Bool) (p : Process Id S P) (a : Aggregate Id S P) :
    Process Id S P :=
  if fails .redis then p
  else
    { p with
      redis := Function.update p.redis a.id (some a.view)
      memory := Function.update p.memory a.id (some a) }

/-- `Save`, with the object as it leaves it. -/
def save (T : String) (drop : Bool) (fails : SaveCall → Bool) (p : Process Id S P)
    (a : Aggregate Id S P) : Process Id S P × Aggregate Id S P :=
  match saveAggregate T drop fails p.store a with
  | .threw (store, a) => ({ p with store }, a)
  | .returned (store, a) => (cache fails { p with store } a, a)

/-- The cached object of `id` is `a` now. -/
def mutate (p : Process Id S P) (id : Id) (a : Aggregate Id S P) : Process Id S P :=
  { p with memory := Function.update p.memory id (some a) }

/-- One request.  `Guid.NewGuid` never yields an id that is in use. -/
def step (d : Domain Id S P) (T : String) (p : Process Id S P) :
    Request Id P → Option (Process Id S P)
  | .change id events fails drop =>
      match p.get id with
      | none => some p
      | some a =>
          match raiseAll d a events with
          | .threw a => some (p.mutate id a)
          | .returned a =>
              some ((p.save T drop fails a).1.mutate id (p.save T drop fails a).2)
  | .create id shardKey events fails drop =>
      if (p.memory id).isNone && (p.store.aggregate id).isEmpty then
        match raiseAll d (Aggregate.new d id shardKey) events with
        | .threw _ => some p
        | .returned a => some (p.save T drop fails a).1
      else none

/-- After `Initialize` over a store: the snapshot of every stored aggregate is in Redis,
    and what it deserializes to is in memory. -/
def initialized (d : TotalDomain Id S P) (store : Store Id P) : Process Id S P :=
  let view id := if store.aggregate id = [] then none else some (viewOf d 0 (store.aggregate id))
  { store, redis := view, memory := fun id => (view id).map (Aggregate.ofSnapshot id) }

end Process

-- ============================================================================
-- What a reader is promised
-- ============================================================================

/-- `Get(id)` is null iff `T-{id}` is empty, and otherwise shows the replay of `T-{id}`. -/
def Process.ReadsStore [DecidableEq Id] (d : Domain Id S P) (p : Process Id S P) : Prop :=
  ∀ id, (p.get id = none ↔ p.store.aggregate id = []) ∧
    ∀ a, p.get id = some a → ∀ shardKey, ∃ r,
      (Aggregate.new d id shardKey).applyEvents d (p.store.aggregate id) = .returned r ∧
        a.view = r.view

/-- The stages up to the append to `T-{id}` do not throw. -/
def Stores (fails : SaveCall → Bool) : Prop :=
  fails .category = false ∧ fails .aggregate = false

/-- The later stages do not throw either. -/
def Finishes (fails : SaveCall → Bool) (events : List (ClrType × P)) : Prop :=
  fails .ids = false ∧ (∀ e ∈ events, fails (.bus e.1) = false) ∧ fails .redis = false

/-- The request does not part the cached object from its stream: a change is stored, and
    the object carries nothing that an earlier save has left behind; a new object is
    stored iff it is cached. -/
def Request.Whole (p : Process Id S P) : Request Id P → Prop
  | .change id events fails _ =>
      ∀ a, p.memory id = some a → events = [] ∨ a.changes = [] ∧ Stores fails
  | .create _ _ events fails _ =>
      (events ≠ [] ∧ Stores fails) ↔ (Stores fails ∧ Finishes fails events)

/-- The versions that the request can reach are in the range of `int`. -/
def Request.InRange (p : Process Id S P) (r : Request Id P) : Prop :=
  ∀ id, (p.store.aggregate id).length + r.events.length < 2 ^ 31 - 1

-- ============================================================================
-- The invariant
-- ============================================================================

/-- Every cached object is the replay of its stream; what it has not marked as committed
    is the end of the stream. -/
structure Process.Inv (p : Process Id S P) (d : TotalDomain Id S P) : Prop where
  streams : ∀ id, History id (p.store.aggregate id)
  absent : ∀ id, p.memory id = none → p.store.aggregate id = []
  present : ∀ id a, p.memory id = some a → p.store.aggregate id ≠ [] ∧
    ∃ sk loaded, a = built d id sk loaded a.changes ∧
      p.store.aggregate id = loaded ++ a.changes

section Inv

variable [DecidableEq Id] {d : TotalDomain Id S P} {T : String} {p p' : Process Id S P}

theorem Process.Inv.readsStore (h : p.Inv d) : p.ReadsStore d.domain := by
  intro id
  refine ⟨?_, ?_⟩
  · refine ⟨?_, ?_⟩
    · exact h.absent id
    · intro hnil
      cases hget : p.get id with
      | none => rfl
      | some a => exact absurd hnil (h.present id a hget).1
  · intro a hget shardKey
    obtain ⟨hne, sk, loaded, ha, hstream⟩ := h.present id a hget
    refine ⟨built d id shardKey [] (p.store.aggregate id),
      applyEvents_new d shardKey (h.streams id), ?_⟩
    rw [ha, built_view, built_view, List.nil_append, ← hstream]
    exact viewOf_eq_of_ne_nil d hne sk shardKey

omit [DecidableEq Id] in
theorem Process.inv_initialized {store : Store Id P}
    (h : ∀ id, History id (store.aggregate id)) : (Process.initialized d store).Inv d where
  streams := h
  absent := by
    intro id hnone
    by_contra hne
    have hne : ¬ store.aggregate id = [] := hne
    simp [initialized, hne] at hnone
  present := by
    intro id a ha
    by_cases hnil : store.aggregate id = []
    · simp [initialized, hnil] at ha
    · simp only [initialized, if_neg hnil, Option.map_some, Option.some.injEq] at ha
      subst ha
      refine ⟨hnil, 0, store.aggregate id, ?_, by simp [initialized, Aggregate.ofSnapshot]⟩
      exact ofSnapshot_viewOf d id 0 (store.aggregate id)

/-- Raising events on a built object. -/
theorem raiseAll_built (d : TotalDomain Id S P) {id : Id} (sk : Int32)
    {loaded changes : List (AggregateEvent Id P)}
    (h : History id (loaded ++ changes)) (events : List (ClrType × P)) :
    ∃ raised, raised.map AggregateEvent.type = events.map Prod.fst ∧
      History id (loaded ++ (changes ++ raised)) ∧
      raiseAll d.domain (built d id sk loaded changes) events =
        .returned (built d id sk loaded (changes ++ raised)) := by
  induction events generalizing changes with
  | nil => exact ⟨[], rfl, by simpa using h, by simp [raiseAll]⟩
  | cons e rest ih =>
      have hnext := h.nextEvent d sk e.1 e.2
      obtain ⟨raised, htypes, hhist, hraise⟩ := ih (by simpa using hnext)
      refine ⟨(built d id sk loaded changes).nextEvent e.1 e.2 :: raised, ?_, ?_, ?_⟩
      · simp [htypes, Aggregate.nextEvent]
      · simpa using hhist
      · rw [raiseAll, applyEvent_built d sk hnext]
        simpa using hraise

omit [DecidableEq Id] in
/-- The store accepts the object's batch iff it was loaded from the whole stream. -/
theorem saveEvents_built_iff (d : TotalDomain Id S P) (id : Id) (sk : Int32)
    {loaded tail changes : List (AggregateEvent Id P)}
    (hshort : (loaded ++ tail).length < 2 ^ 31 - 1) :
    saveEvents (loaded ++ tail) changes
        (expectedVersion (built d id sk loaded changes) changes) ≠ none ↔ tail = [] := by
  refine ⟨fun haccept => ?_, ?_⟩
  · by_contra hne
    have hpos : 0 < tail.length := List.length_pos_iff.mpr hne
    have hlt : loaded.length < (loaded ++ tail).length := by
      rw [List.length_append]
      omega
    exact haccept (saveEvents_built_of_stale d id sk hlt hshort)
  · rintro rfl
    rw [List.append_nil] at *
    rw [saveEvents_built_self d id sk (by omega)]
    simp

omit [DecidableEq Id] in
theorem lateFailure_iff {fails : SaveCall → Bool} {changes : List (AggregateEvent Id P)}
    {events : List (ClrType × P)} (h : changes.map AggregateEvent.type = events.map Prod.fst) :
    Finishes fails events ↔ ¬ LateFailure fails changes ∧ fails .redis = false := by
  have hbus : (∃ g ∈ eventsByType changes, fails (.bus g.1) = true) ↔
      ∃ e ∈ events, fails (.bus e.1) = true := by
    have hmem : ∀ t, (∃ g, (t, g) ∈ eventsByType changes) ↔ t ∈ events.map Prod.fst := by
      intro t
      rw [← h]
      simp [eventsByType, mem_groupBy]
    refine ⟨?_, ?_⟩
    · rintro ⟨g, hg, hfail⟩
      obtain ⟨e, he, htype⟩ := List.mem_map.mp ((hmem g.1).mp ⟨g.2, hg⟩)
      exact ⟨e, he, by rw [htype]; exact hfail⟩
    · rintro ⟨e, he, hfail⟩
      obtain ⟨g, hg⟩ := (hmem e.1).mpr (List.mem_map_of_mem he)
      exact ⟨(e.1, g), hg, hfail⟩
  rw [LateFailure, hbus, Finishes]
  simp only [not_or, not_exists, not_and, Bool.not_eq_true, and_assoc]

/-- A save that does not get its batch into `T-{id}`: the object keeps it, and neither the
    stream nor the cache changes. -/
theorem save_built_refused (T : String) {id : Id} (sk : Int32)
    {loaded changes : List (AggregateEvent Id P)} (raised : List (AggregateEvent Id P))
    {fails : SaveCall → Bool} (drop : Bool)
    (hstream : p.store.aggregate id = loaded ++ changes)
    (hshort : (loaded ++ changes).length < 2 ^ 31 - 1) (h : ¬ (changes = [] ∧ Stores fails)) :
    ∃ store, store.aggregate = p.store.aggregate ∧
      p.save T drop fails (built d id sk loaded (changes ++ raised)) =
        ({ p with store }, built d id sk loaded (changes ++ raised)) := by
  rcases saveAggregate_cases fails T drop p.store (built d id sk loaded (changes ++ raised)) with
    ⟨store, hsave, hagg, -⟩ | ⟨store, hcategory, haggregate, haccept, -, -⟩
  · exact ⟨store, hagg, by simp only [Process.save, hsave]⟩
  · simp only [built_id, built_changes, hstream] at haccept
    have hnil := (saveEvents_built_iff d id sk hshort).mp (by rw [haccept]; simp)
    exact absurd ⟨hnil, hcategory, haggregate⟩ h

/-- A save of an object that carries only what was raised: the stream gets it, and the
    object reaches the cache iff no later call throws. -/
theorem save_built_stored (T : String) {id : Id} (sk : Int32)
    {loaded raised : List (AggregateEvent Id P)} {events : List (ClrType × P)}
    {fails : SaveCall → Bool} (drop : Bool)
    (hstream : p.store.aggregate id = loaded) (hshort : loaded.length < 2 ^ 31 - 1)
    (htypes : raised.map AggregateEvent.type = events.map Prod.fst) (h : Stores fails) :
    ∃ store, store.aggregate = Function.update p.store.aggregate id (loaded ++ raised) ∧
      ((¬ Finishes fails events ∧ ∃ loaded' changes', loaded' ++ changes' = loaded ++ raised ∧
          p.save T drop fails (built d id sk loaded raised) =
            ({ p with store }, built d id sk loaded' changes')) ∨
        (Finishes fails events ∧ ∃ redis,
          p.save T drop fails (built d id sk loaded raised) =
            ({ store, redis,
               memory := Function.update p.memory id (some (built d id sk (loaded ++ raised) [])) },
              built d id sk (loaded ++ raised) []))) := by
  rw [lateFailure_iff htypes]
  rcases saveAggregate_cases fails T drop p.store (built d id sk loaded raised) with
    ⟨store, -, -, hwhy⟩ | ⟨store, -, -, -, hagg, hsave⟩
  · exfalso
    rcases hwhy with hwhy | hwhy | hwhy
    · rw [h.1] at hwhy
      cases hwhy
    · rw [h.2] at hwhy
      cases hwhy
    · rw [built_id, built_changes, hstream, saveEvents_built_self d id sk (by omega)] at hwhy
      cases hwhy
  · rw [built_id, built_changes, hstream] at hagg
    refine ⟨store, hagg, ?_⟩
    rw [built_changes] at hsave
    rcases hsave with ⟨hsave, hlate⟩ | ⟨hsave, hlate⟩
    · exact Or.inl ⟨fun h => h.1 hlate, loaded, raised, rfl, by simp only [Process.save, hsave]⟩
    · rw [markAsCommited_built] at hsave
      by_cases hredis : fails .redis = true
      · left
        refine ⟨fun h => ?_, loaded ++ raised, [], List.append_nil _, ?_⟩
        · rw [hredis] at h
          cases h.2
        · simp only [Process.save, hsave, Process.cache, if_pos hredis]
      · right
        refine ⟨⟨hlate, by simpa using hredis⟩,
          Function.update p.redis id (some (built d id sk (loaded ++ raised) []).view), ?_⟩
        simp only [Process.save, hsave, Process.cache, if_neg hredis, built_id]

end Inv

-- ============================================================================
-- Requests
-- ============================================================================

section Requests

variable [DecidableEq Id] {d : TotalDomain Id S P} {T : String} {p p' : Process Id S P}

omit [DecidableEq Id] in
theorem Process.Inv.congr (h : p.Inv d) (hagg : p'.store.aggregate = p.store.aggregate)
    (hmemory : p'.memory = p.memory) : p'.Inv d where
  streams := by
    rw [hagg]
    exact h.streams
  absent := by
    rw [hagg, hmemory]
    exact h.absent
  present := by
    rw [hagg, hmemory]
    exact h.present

/-- One stream and its object change together. -/
theorem Process.Inv.update (h : p.Inv d) {id : Id} (sk : Int32)
    (loaded changes : List (AggregateEvent Id P)) {stream : List (AggregateEvent Id P)}
    (hagg : p'.store.aggregate = Function.update p.store.aggregate id stream)
    (hmemory : p'.memory = Function.update p.memory id (some (built d id sk loaded changes)))
    (hhist : History id stream) (hne : stream ≠ []) (hstream : loaded ++ changes = stream) :
    p'.Inv d := by
  have hself : ∀ id', id' ≠ id →
      p'.store.aggregate id' = p.store.aggregate id' ∧ p'.memory id' = p.memory id' := by
    intro id' hid
    rw [hagg, hmemory, Function.update_of_ne hid, Function.update_of_ne hid]
    exact ⟨rfl, rfl⟩
  have hstream' : p'.store.aggregate id = stream := by rw [hagg, Function.update_self]
  have hmemory' : p'.memory id = some (built d id sk loaded changes) := by
    rw [hmemory, Function.update_self]
  refine ⟨?_, ?_, ?_⟩
  · intro id'
    by_cases hid : id' = id
    · subst hid
      rw [hstream']
      exact hhist
    · rw [(hself id' hid).1]
      exact h.streams id'
  · intro id' hnone
    by_cases hid : id' = id
    · subst hid
      rw [hmemory'] at hnone
      cases hnone
    · rw [(hself id' hid).2] at hnone
      rw [(hself id' hid).1]
      exact h.absent id' hnone
  · intro id' a ha
    by_cases hid : id' = id
    · subst hid
      rw [hmemory'] at ha
      cases ha
      rw [hstream']
      exact ⟨hne, sk, loaded, rfl, hstream.symm⟩
    · rw [(hself id' hid).2] at ha
      rw [(hself id' hid).1]
      exact h.present id' a ha

/-- What a request for a change does to a cached object. -/
theorem step_change {id : Id} {events : List (ClrType × P)} {fails : SaveCall → Bool}
    {drop : Bool} {a : Aggregate Id S P} (h : p.Inv d) (ha : p.memory id = some a)
    (hstep : p.step d.domain T (.change id events fails drop) = some p') :
    ∃ sk loaded raised, p.store.aggregate id = loaded ++ a.changes ∧
      raised.map AggregateEvent.type = events.map Prod.fst ∧
      History id (loaded ++ (a.changes ++ raised)) ∧
      p' = (p.save T drop fails (built d id sk loaded (a.changes ++ raised))).1.mutate id
        (p.save T drop fails (built d id sk loaded (a.changes ++ raised))).2 := by
  obtain ⟨-, sk, loaded, hbuilt, hstream⟩ := h.present id a ha
  have hhist : History id (loaded ++ a.changes) := by
    rw [← hstream]
    exact h.streams id
  obtain ⟨raised, htypes, hhist', hraise⟩ := raiseAll_built d sk hhist events
  rw [← hbuilt] at hraise
  refine ⟨sk, loaded, raised, hstream, htypes, hhist', ?_⟩
  simp only [Process.step, Process.get, ha, hraise] at hstep
  exact (Option.some.inj hstep).symm

/-- A request for a change of an object that is not cached does nothing. -/
theorem step_change_none {id : Id} {events : List (ClrType × P)}
    {fails : SaveCall → Bool} {drop : Bool} (hnone : p.memory id = none)
    (hstep : p.step d.domain T (.change id events fails drop) = some p') : p' = p := by
  simp only [Process.step, Process.get, hnone, Option.some.injEq] at hstep
  exact hstep.symm

/-- What a request for a new object does. -/
theorem step_create {id : Id} {sk : Int32} {events : List (ClrType × P)}
    {fails : SaveCall → Bool} {drop : Bool}
    (hstep : p.step d.domain T (.create id sk events fails drop) = some p') :
    p.memory id = none ∧ p.store.aggregate id = [] ∧
      ∃ raised, raised.map AggregateEvent.type = events.map Prod.fst ∧ History id raised ∧
        p' = (p.save T drop fails (built d id sk [] raised)).1 := by
  simp only [Process.step] at hstep
  split at hstep
  · rename_i hfresh
    simp only [Bool.and_eq_true, Option.isNone_iff_eq_none, List.isEmpty_iff] at hfresh
    have hnil : History id ([] ++ [] : List (AggregateEvent Id P)) := History.nil
    obtain ⟨raised, htypes, hhist, hraise⟩ := raiseAll_built d sk hnil events
    simp only [new_eq_built, hraise] at hstep
    exact ⟨hfresh.1, hfresh.2, raised, htypes, hhist, (Option.some.inj hstep).symm⟩
  · cases hstep

/-- A whole request keeps every cached object the replay of its stream. -/
theorem Process.Inv.keep {r : Request Id P} (h : p.Inv d) (hrange : r.InRange p)
    (hwhole : r.Whole p) (hstep : p.step d.domain T r = some p') : p'.Inv d := by
  cases r with
  | change id events fails drop =>
      cases ha : p.memory id with
      | none =>
          obtain rfl := step_change_none ha hstep
          exact h
      | some a =>
          obtain ⟨sk, loaded, raised, hstream, htypes, hhist, rfl⟩ := step_change h ha hstep
          obtain ⟨hne, -⟩ := h.present id a ha
          have hlen := hrange id
          rw [hstream] at hlen
          by_cases hstores : a.changes = [] ∧ Stores fails
          · obtain ⟨hnil, hstores⟩ := hstores
            rw [hnil, List.append_nil] at hstream hlen
            rw [hnil, List.nil_append] at hhist ⊢
            rw [hstream] at hne
            have hne' : loaded ++ raised ≠ [] := by simp [hne]
            obtain ⟨store, hagg, ⟨-, l, c, hlc, hsave⟩ | ⟨-, redis, hsave⟩⟩ :=
              save_built_stored T sk drop hstream (by omega) htypes hstores
            · rw [hsave]
              exact h.update sk l c hagg rfl hhist hne' hlc
            · rw [hsave]
              refine h.update sk (loaded ++ raised) [] hagg ?_ hhist hne' (List.append_nil _)
              simp [Process.mutate]
          · -- nothing is stored, so nothing was raised
            have hevents : events = [] := (hwhole a ha).resolve_right hstores
            have hraised : raised = [] := by simpa [hevents] using htypes
            subst hraised
            obtain ⟨store, hagg, hsave⟩ :=
              save_built_refused T sk [] drop hstream (by omega) hstores
            rw [hsave, List.append_nil]
            refine h.update sk loaded a.changes ?_ rfl (h.streams id) hne hstream.symm
            rw [Function.update_eq_self]
            exact hagg
  | create id sk events fails drop =>
      obtain ⟨hnone, hnil, raised, htypes, hhist, rfl⟩ := step_create hstep
      by_cases hstores : Stores fails
      · obtain ⟨store, hagg, ⟨hfin, l, c, -, hsave⟩ | ⟨hfin, redis, hsave⟩⟩ :=
          save_built_stored T sk drop hnil (by simp) htypes hstores
        · -- not cached, so not stored: there was nothing to store
          have hevents : events = [] := by
            by_contra hne
            exact hfin (hwhole.mp ⟨hne, hstores⟩).2
          have hraised : raised = [] := by simpa [hevents] using htypes
          rw [hraised, List.append_nil, ← hnil, Function.update_eq_self] at hagg
          rw [hsave]
          exact h.congr hagg rfl
        · have hevents : events ≠ [] := (hwhole.mpr ⟨hstores, hfin⟩).1
          have hraised : raised ≠ [] := by
            rintro rfl
            exact hevents (by simpa using htypes.symm)
          rw [List.nil_append] at hagg hsave
          rw [hsave]
          exact h.update sk raised [] hagg rfl hhist hraised (List.append_nil _)
      · have hnot : ¬ (([] : List (AggregateEvent Id P)) = [] ∧ Stores fails) :=
          fun hs => hstores hs.2
        have hnil' : p.store.aggregate id = [] ++ [] := hnil
        obtain ⟨store, hagg, hsave⟩ := save_built_refused T sk raised drop hnil' (by simp) hnot
        rw [List.nil_append] at hsave
        rw [hsave]
        exact h.congr hagg rfl

/-- A reader who sees an object sees the number of its stream's events as its version. -/
theorem Process.ReadsStore.version {id : Id} {a : Aggregate Id S P}
    (h : p.ReadsStore d.domain) (ha : p.memory id = some a)
    (hhist : History id (p.store.aggregate id)) :
    a.version = Int32.ofNat (p.store.aggregate id).length := by
  obtain ⟨r, hreplay, hview⟩ := (h id).2 a ha 0
  rw [applyEvents_new d 0 hhist] at hreplay
  cases hreplay
  have hversion : a.version = _ := congrArg View.version hview
  simpa [viewOf] using hversion

/-- A request that is not whole leaves a reader with something that the store does not
    have, or without something that it has. -/
theorem Process.Inv.breaks {r : Request Id P} (h : p.Inv d) (hrange : r.InRange p)
    (hwhole : ¬ r.Whole p) (hstep : p.step d.domain T r = some p') :
    ¬ p'.ReadsStore d.domain := by
  intro hreads
  cases r with
  | change id events fails drop =>
      simp only [Request.Whole, not_forall, not_or] at hwhole
      obtain ⟨a, ha, hevents, hstores⟩ := hwhole
      obtain ⟨sk, loaded, raised, hstream, htypes, -, rfl⟩ := step_change h ha hstep
      have hlen := hrange id
      have hcount : raised.length = events.length := by simpa using congrArg List.length htypes
      have hpos := List.length_pos_iff.mpr hevents
      rw [hstream] at hlen
      simp only [Request.events, List.length_append] at hlen
      obtain ⟨store, hagg, hsave⟩ := save_built_refused T sk raised drop hstream
        (by rw [List.length_append]; omega) hstores
      rw [hsave] at hreads
      have hsame : store.aggregate id = loaded ++ a.changes := by rw [hagg, hstream]
      have hhist : History id (store.aggregate id) := by
        rw [hagg]
        exact h.streams id
      -- the object counts what was raised, the stream does not
      have hversion : (built d id sk loaded (a.changes ++ raised)).version =
          Int32.ofNat (store.aggregate id).length :=
        hreads.version (Function.update_self ..) hhist
      have hversion := congrArg Int32.toInt hversion
      rw [built_version, hsame, List.length_append, List.length_append,
        Int32.toInt_ofNat_of_lt (by omega), Int32.toInt_ofNat_of_lt (by omega)] at hversion
      omega
  | create id sk events fails drop =>
      obtain ⟨hnone, hnil, raised, htypes, -, rfl⟩ := step_create hstep
      have hraised : raised = [] ↔ events = [] := by
        rw [← List.map_eq_nil_iff (f := AggregateEvent.type), htypes, List.map_eq_nil_iff]
      by_cases hstores : Stores fails
      · simp only [Request.Whole, hstores, and_true, true_and] at hwhole
        obtain ⟨store, hagg, ⟨hfin, l, c, -, hsave⟩ | ⟨hfin, redis, hsave⟩⟩ :=
          save_built_stored T sk drop hnil (by simp) htypes hstores
        · -- stored and not cached
          rw [hsave] at hreads
          have hstream : store.aggregate id = [] := (hreads id).1.mp hnone
          rw [hagg, Function.update_self, List.nil_append, hraised] at hstream
          exact hwhole ⟨fun hne => absurd hstream hne, fun h => absurd h hfin⟩
        · -- cached and not stored
          rw [hsave] at hreads
          refine hwhole ⟨fun _ => hfin, fun _ hevents => ?_⟩
          have hstream : store.aggregate id = [] := by
            rw [hagg, Function.update_self, List.nil_append, hraised]
            exact hevents
          have hget : Function.update p.memory id _ id = none := (hreads id).1.mpr hstream
          rw [Function.update_self] at hget
          cases hget
      · simp [Request.Whole, hstores] at hwhole

/-- **Reads show what the store has iff every request is whole.** From a process that is
    initialized over healthy streams, and as long as the versions are in the range of
    `int`, the requests that are whole keep every read right, and any other breaks one. -/
theorem reads_iff_whole {store : Store Id P} {rs : List (Request Id P)}
    (hstreams : ∀ id, History id (store.aggregate id))
    (hrun : Transition.run (Process.step d.domain T) (Process.initialized d store) rs = some p) :
    (Transition.Along (Process.step d.domain T) (fun p r => r.InRange p ∧ r.Whole p)
        (Process.initialized d store) rs →
      Transition.Always (Process.step d.domain T) (Process.ReadsStore d.domain)
        (Process.initialized d store) rs) ∧
    (Transition.Along (Process.step d.domain T) (fun p r => r.InRange p)
        (Process.initialized d store) rs →
      Transition.Always (Process.step d.domain T) (Process.ReadsStore d.domain)
        (Process.initialized d store) rs →
      Transition.Along (Process.step d.domain T) (fun p r => r.Whole p)
        (Process.initialized d store) rs) := by
  have hinit := Process.inv_initialized (d := d) hstreams
  have hiff : Transition.Along (Process.step d.domain T) (fun p r => r.InRange p)
      (Process.initialized d store) rs → _ := fun hrange =>
    Transition.always_iff_along (I := fun p => Process.Inv p d) (C := fun p r => r.Whole p)
      (fun _ h => h.readsStore) (fun _ _ _ h hrange hwhole hstep => h.keep hrange hwhole hstep)
      (fun _ _ _ h hrange hwhole hstep => h.breaks hrange hwhole hstep) hinit hrange hrun
  refine ⟨?_, ?_⟩
  · intro h
    exact (hiff (h.mono fun _ _ h => h.1)).mpr (h.mono fun _ _ h => h.2)
  · intro hrange
    exact (hiff hrange).mp

end Requests

section Users

open Milde.UserManagement

/-- `CreateUser`, in which the calls `fails` throw. -/
def createUser (fails : SaveCall → Bool) : Request Nat UserEvent :=
  .create 7 41 [((UserEvent.created none none 30).type, .created none none 30)] fails false

/-- `ChangeUserAge` on the same user. -/
def changeUserAge (fails : SaveCall → Bool) : Request Nat UserEvent :=
  .change 7 [((UserEvent.ageChanged 31).type, .ageChanged 31)] fails false

def noUsers : Process Nat UserState UserEvent := Process.initialized userDomain Store.empty

theorem reads_iff_whole_createUser :
    ∃ p, Transition.run (Process.step userDomain.domain "User") noUsers
        [createUser fun _ => false] = some p ∧
      (p.store.aggregate 7).length = 1 ∧
      Transition.Always (Process.step userDomain.domain "User")
        (Process.ReadsStore userDomain.domain) noUsers [createUser fun _ => false] := by
  have hstreams : ∀ id : Nat, History id ((Store.empty : Store Nat UserEvent).aggregate id) :=
    fun _ => History.nil
  have hwhole : Transition.Along (Process.step userDomain.domain "User")
      (fun p r => r.InRange p ∧ r.Whole p) noUsers [createUser fun _ => false] := by
    refine ⟨⟨fun id => ?_, ?_⟩, fun _ _ => trivial⟩
    · show 0 + 1 < _
      decide
    · simp [createUser, Request.Whole, Stores, Finishes]
  exact ⟨_, rfl, rfl, (reads_iff_whole hstreams rfl).1 hwhole⟩

/-- The append to the category stream throws: the cached object has changed all the same. -/
theorem reads_fail_changeUserAge :
    ∃ p, Transition.run (Process.step userDomain.domain "User") noUsers
        [createUser fun _ => false, changeUserAge fun c => c = .category] = some p ∧
      (p.get 7).map (fun a => a.version) = some 2 ∧ (p.store.aggregate 7).length = 1 ∧
      ¬ p.ReadsStore userDomain.domain := by
  refine ⟨_, rfl, rfl, rfl, fun h => ?_⟩
  obtain ⟨r, hreplay, hview⟩ := (h 7).2 _ rfl 41
  cases hreplay
  revert hview
  decide

end Users

end Milde.AggregateCache
