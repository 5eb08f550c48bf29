/-
  Milde.AggregateCache.Initialize

  The two ways a service process fills its cache when it starts
  (AggregateCache/AggregateCache.cs, Redis/AggregateCache/RedisAggregateCache.cs,
  AggregateCache/InMemory/InMemoryAggregateCache.cs).

  `AggregateCache.Initialize` reads the snapshots in Redis, lets `UpdateAggregates` bring
  them up to date, writes them back and puts what it reads back into memory.
  `InMemoryAggregateCache.Initialize` replays the stream `T`, group by group.  Over a
  store that successful saves have built up, both yield the replay of every aggregate's
  stream (`initializeCache_eq`, `inMemoryInitialize_eq`) unless two tasks share an object that
  is behind its stream or an event class has the name of the aggregate class.
-/
import Milde.AggregateCache.Repository
import Milde.AggregateCache.UpdateAggregates
import Milde.EventStore.SequentialRuns

namespace Milde.AggregateCache

open Milde.EventSourcing Milde.EventStore

variable {Id S P : Type} [DecidableEq Id]

/-- `RedisAggregateCache.SaveAggregates`: `HashSetAsync` with a field for each aggregate. -/
def saveAggregates (redis : RedisHash Id S) (aggregates : List (Aggregate Id S P)) :
    RedisHash Id S :=
  aggregates.foldl (fun redis a => Function.update redis a.id (some a.view)) redis

/-- `PopulateCache` with `GetAllAggregates`: what the fields of the hash deserialize to. -/
def populateCache (redis : RedisHash Id S) (id : Id) : Option (Aggregate Id S P) :=
  (redis id).map (Aggregate.ofSnapshot id)

/-- `AggregateCache.Initialize` after the tasks of `UpdateAggregates`; `none` when an
    exception has escaped from one of them. -/
def initializeCache (store : Store Id P) (redis : RedisHash Id S) (u : Update Id S P) :
    Option (Process Id S P) :=
  if u.failed then none
  else
    let redis := saveAggregates redis (u.added.map u.objects)
    some { store, redis, memory := populateCache redis }

/-- The `foreach` of `InMemoryAggregateCache.Initialize`. -/
def replayGroups (d : Domain Id S P) (shardKey : Id → Int32) :
    (Id → Option (Aggregate Id S P)) → List (Id × List (AggregateEvent Id P)) →
      Option (Id → Option (Aggregate Id S P))
  | memory, [] => some memory
  | memory, (id, events) :: rest =>
      match (Aggregate.new d id (shardKey id)).applyEvents d (orderByVersion events) with
      | .returned a => replayGroups d shardKey (Function.update memory a.id (some a)) rest
      | .threw _ => none

/-- `InMemoryAggregateCache.Initialize`, on an empty cache. -/
def inMemoryInitialize (d : Domain Id S P) (T : String) (shardKey : Id → Int32)
    (store : Store Id P) : Option (Id → Option (Aggregate Id S P)) :=
  replayGroups d shardKey (fun _ => none)
    (groupBy AggregateEvent.aggregateId (getEvents (store.typed T) 0))

/-- What a store says: of every aggregate with events the replay of its stream. -/
def replayed (d : Domain Id S P) (store : Store Id P) (id : Id) : Option (View S) :=
  match store.aggregate id with
  | [] => none
  | e :: es =>
      match (Aggregate.new d id 0).applyEvents d (e :: es) with
      | .returned a => some a.view
      | .threw _ => none

/-- Both ways of filling the cache succeed, in every order of the tasks and with every
    choice of shard keys, and both yield what the store says. -/
structure InitializesAlike (d : Domain Id S P) (T : String) (store : Store Id P)
    (redis : RedisHash Id S) : Prop where
  replays : ∀ id, store.aggregate id ≠ [] → (replayed d store id).isSome
  ends : ∀ shardKey, ∃ ls u, Transition.run (updateStep d store redis)
    (Update.start d store redis shardKey) ls = some u ∧ Stuck d store redis u
  cache : ∀ shardKey ls u, Transition.run (updateStep d store redis)
    (Update.start d store redis shardKey) ls = some u → Stuck d store redis u →
      ∃ p, initializeCache store redis u = some p ∧ p.redis = replayed d store ∧
        ∀ id, (p.memory id).map Aggregate.view = p.redis id
  inMemory : ∀ shardKey, ∃ memory, inMemoryInitialize d T shardKey store = some memory ∧
    ∀ id, (memory id).map Aggregate.view = replayed d store id

/-- No stored event is of a class with the simple name of the aggregate class. -/
def NoneNamed (T : String) (store : Store Id P) : Prop :=
  ∀ id, ∀ e ∈ store.aggregate id, getStream e.type ≠ T

section Initialize

variable {d : TotalDomain Id S P} {T : String} {store : Store Id P} {redis : RedisHash Id S}
  {u : Update Id S P}

theorem replayed_eq (hstreams : ∀ id, History id (store.aggregate id)) (id : Id) :
    replayed d.domain store id =
      if store.aggregate id = [] then none else some (viewOf d 0 (store.aggregate id)) := by
  have hreplay := applyEvents_new d 0 (hstreams id)
  unfold replayed
  cases hstream : store.aggregate id with
  | nil => rfl
  | cons e es =>
      rw [hstream] at hreplay
      simp only [hreplay, built_view, List.nil_append, if_neg (List.cons_ne_nil e es)]

/-- The cache that requests start from is the one that the store says. -/
theorem initialized_redis (hstreams : ∀ id, History id (store.aggregate id)) :
    (Process.initialized d store).redis = replayed d.domain store :=
  funext fun id => (replayed_eq hstreams id).symm

-- ============================================================================
-- AggregateCache.Initialize
-- ============================================================================

/-- Writing back: the fields of the aggregates change, the others stay. -/
theorem saveAggregates_apply {aggregates : List (Aggregate Id S P)} {id : Id} {v : View S}
    (h : ∀ a ∈ aggregates, a.id = id → a.view = v) :
    saveAggregates redis aggregates id =
      if id ∈ aggregates.map Aggregate.id then some v else redis id := by
  by_cases hmem : id ∈ aggregates.map Aggregate.id
  · rw [if_pos hmem]
    exact List.foldl_update_of_mem hmem (fun a ha hid => congrArg some (h a ha hid)) redis
  · rw [if_neg hmem]
    exact List.foldl_update_of_notMem hmem redis

/-- When all tasks have ended well, the cache is what the store says. -/
theorem initializeCache_eq (h : Sound d store redis u) (hstuck : Stuck d.domain store redis u)
    (hlisted : ∀ id, id ∈ store.ids ↔ store.aggregate id ≠ [])
    (hsnap : Snapshots d store redis) :
    initializeCache store redis u = some (Process.initialized d store) := by
  obtain ⟨hbuilt, hall⟩ := h.returned hstuck
  have hviews : ∀ id, ∀ a ∈ u.added.map u.objects, a.id = id →
      a.view = viewOf d 0 (store.aggregate id) := by
    rintro id a ha rfl
    obtain ⟨hid, hb⟩ := hbuilt a ha
    exact hb.view ((hlisted a.id).mp hid)
  have hids : ∀ id, id ∈ (u.added.map u.objects).map Aggregate.id ↔ store.aggregate id ≠ [] := by
    intro id
    rw [← hlisted, List.mem_map]
    refine ⟨?_, ?_⟩
    · rintro ⟨a, ha, rfl⟩
      exact (hbuilt a ha).1
    · exact hall id
  have hredis : saveAggregates redis (u.added.map u.objects) =
      (Process.initialized d store).redis := by
    funext id
    rw [saveAggregates_apply (hviews id)]
    by_cases hne : store.aggregate id ≠ []
    · rw [if_pos ((hids id).mpr hne)]
      simp only [Process.initialized, if_neg hne]
    · rw [if_neg fun hmem => hne ((hids id).mp hmem)]
      -- an aggregate without events has no snapshot
      have hnone : redis id = none := by
        cases hv : redis id with
        | none => rfl
        | some v => exact absurd (hsnap id v hv).1 hne
      rw [hnone]
      simp only [Process.initialized, if_pos (not_not.mp hne)]
  rw [initializeCache, h.ok]
  simp only [Bool.false_eq_true, if_false, hredis]
  rfl

-- ============================================================================
-- InMemoryAggregateCache.Initialize
-- ============================================================================

/-- The loop ends when every group replays, with the replay of every group in memory. -/
theorem replayGroups_eq {shardKey : Id → Int32} {views : Id → Option (View S)}
    {groups : List (Id × List (AggregateEvent Id P))} (memory : Id → Option (Aggregate Id S P))
    (h : ∀ g ∈ groups, ∃ a, (Aggregate.new d.domain g.1 (shardKey g.1)).applyEvents d.domain
      (orderByVersion g.2) = .returned a ∧ a.id = g.1 ∧ some a.view = views g.1) :
    ∃ memory', replayGroups d.domain shardKey memory groups = some memory' ∧
      ∀ id, (memory' id).map Aggregate.view =
        if id ∈ groups.map Prod.fst then views id else (memory id).map Aggregate.view := by
  induction groups generalizing memory with
  | nil => exact ⟨memory, rfl, fun _ => rfl⟩
  | cons g rest ih =>
      obtain ⟨a, ha, hid, hview⟩ := h g List.mem_cons_self
      obtain ⟨memory', hrun, hmemory⟩ := ih (Function.update memory a.id (some a))
        fun g' hg' => h g' (List.mem_cons_of_mem g hg')
      refine ⟨memory', by simp only [replayGroups, ha, hrun], fun id => ?_⟩
      rw [hmemory]
      by_cases heq : id = g.1
      · subst heq
        simp [hid, hview]
      · have hne : id ≠ a.id := by
          rw [hid]
          exact heq
        simp only [List.map_cons, List.mem_cons, heq, false_or, Function.update_of_ne hne]

/-- When the loop ends, no group has thrown. -/
theorem replayGroups_returned {shardKey : Id → Int32}
    {groups : List (Id × List (AggregateEvent Id P))}
    {memory memory' : Id → Option (Aggregate Id S P)}
    (h : replayGroups d.domain shardKey memory groups = some memory') :
    ∀ g ∈ groups, ∃ a, (Aggregate.new d.domain g.1 (shardKey g.1)).applyEvents d.domain
      (orderByVersion g.2) = .returned a := by
  induction groups generalizing memory with
  | nil => simp
  | cons g rest ih =>
      simp only [replayGroups] at h
      split at h
      · rename_i a ha
        intro g' hg'
        rcases List.mem_cons.mp hg' with rfl | hg'
        · exact ⟨a, ha⟩
        · exact ih h g' hg'
      · cases h

/-- The groups of the stream `T`. -/
theorem mem_groups_typed {id : Id} {events : List (AggregateEvent Id P)} :
    (id, events) ∈ groupBy AggregateEvent.aggregateId (getEvents (store.typed T) 0) ↔
      eventsOf id (store.typed T) ≠ [] ∧ events = eventsOf id (store.typed T) := by
  rw [getEvents_eq_drop, List.drop_zero, mem_groupBy]
  apply and_congr_left
  intro _
  rw [eventsOf, Ne, List.filter_eq_nil_iff]
  simp

/-- When `T` holds of every aggregate exactly its stream, the cache is what the store says. -/
theorem inMemoryInitialize_eq (hstreams : ∀ id, History id (store.aggregate id))
    (hshort : Short T store)
    (hcategory : ∀ id, eventsOf id (store.typed T) = store.aggregate id)
    (shardKey : Id → Int32) :
    ∃ memory, inMemoryInitialize d.domain T shardKey store = some memory ∧
      ∀ id, (memory id).map Aggregate.view = replayed d.domain store id := by
  have hgroups : ∀ g ∈ groupBy AggregateEvent.aggregateId (getEvents (store.typed T) 0),
      ∃ a, (Aggregate.new d.domain g.1 (shardKey g.1)).applyEvents d.domain
        (orderByVersion g.2) = .returned a ∧ a.id = g.1 ∧
        some a.view = replayed d.domain store g.1 := by
    rintro ⟨id, events⟩ hg
    obtain ⟨hne, rfl⟩ := mem_groups_typed.mp hg
    rw [hcategory] at hne ⊢
    have horder : orderByVersion (store.aggregate id) = store.aggregate id := by
      have hlen := hshort.aggregate id
      exact orderByVersion_of_numbered (hstreams id).numbered (by omega)
    refine ⟨built d id (shardKey id) [] (store.aggregate id), ?_, rfl, ?_⟩
    · rw [horder]
      exact applyEvents_new d (shardKey id) (hstreams id)
    · rw [replayed_eq hstreams, if_neg hne, built_view, List.nil_append,
        viewOf_eq_of_ne_nil d hne (shardKey id) 0]
  obtain ⟨memory, hrun, hmemory⟩ := replayGroups_eq (fun _ => none) hgroups
  refine ⟨memory, hrun, fun id => ?_⟩
  rw [hmemory]
  have hkey : id ∈ (groupBy AggregateEvent.aggregateId (getEvents (store.typed T) 0)).map
      Prod.fst ↔ store.aggregate id ≠ [] := by
    rw [← hcategory, List.mem_map]
    refine ⟨?_, ?_⟩
    · rintro ⟨⟨id', events⟩, hg, rfl⟩
      exact (mem_groups_typed.mp hg).1
    · intro hne
      exact ⟨(id, _), mem_groups_typed.mpr ⟨hne, rfl⟩, rfl⟩
  by_cases hne : store.aggregate id ≠ []
  · rw [if_pos (hkey.mpr hne)]
  · rw [if_neg fun hmem => hne (hkey.mp hmem), replayed_eq hstreams, if_pos (not_not.mp hne)]
    rfl

/-- An aggregate of which `T` has more than its stream cannot be replayed from `T`. -/
theorem noneNamed_of_replay (hcategory : ∀ id, InCategory T (store.aggregate id)
      (eventsOf id (store.typed T)))
    (hstreams : ∀ id, History id (store.aggregate id)) (hshort : Short T store)
    {shardKey : Id → Int32} {memory : Id → Option (Aggregate Id S P)}
    (h : inMemoryInitialize d.domain T shardKey store = some memory) : NoneNamed T store := by
  intro id e he hname
  have hmore := (hcategory id).doubled ⟨e, he, hname⟩
  have hne : eventsOf id (store.typed T) ≠ [] := by
    intro hnil
    rw [hnil] at hmore
    exact absurd hmore (Nat.not_lt_zero _)
  obtain ⟨a, ha⟩ := replayGroups_returned h _ (mem_groups_typed.mpr ⟨hne, rfl⟩)
  have hown : ∀ e' ∈ orderByVersion (eventsOf id (store.typed T)), e'.aggregateId = id := by
    intro e' he'
    have := List.mem_filter.mp (mem_orderByVersion.mp he')
    simpa using this.2
  have hlen : (orderByVersion (eventsOf id (store.typed T))).length ≤ (store.typed T).length := by
    rw [length_orderByVersion]
    exact List.length_filter_le ..
  have hcat := hshort.category
  have hhist : History id ([] ++ orderByVersion (eventsOf id (store.typed T))) :=
    History.of_applyEvents d (shardKey id) History.nil hown (by rw [List.nil_append]; omega) ha
  rw [List.nil_append] at hhist
  -- the last of the replayed events has a version that the stream does not reach
  rcases List.eq_nil_or_concat (orderByVersion (eventsOf id (store.typed T))) with hnil |
    ⟨before, last, hlast⟩
  · have hzero := congrArg List.length hnil
    rw [length_orderByVersion, List.length_nil] at hzero
    omega
  · have hversion : last.version = Int32.ofNat (before.length + 1) := by
      rw [hlast, List.concat_eq_append] at hhist
      exact hhist.version_append_cons
    have hmem : last ∈ store.aggregate id := by
      refine (hcategory id).known (mem_orderByVersion.mp ?_)
      rw [hlast, List.concat_eq_append]
      exact List.mem_append_right _ (List.mem_singleton_self _)
    obtain ⟨i, -, hi, hkey⟩ := (hstreams id).numbered.exists_key hmem
    have hcount := length_orderByVersion (eventsOf id (store.typed T))
    rw [hlast, List.length_concat] at hcount hlen
    have heq := congrArg Int32.toInt (hversion.symm.trans hkey)
    rw [Int32.toInt_ofNat_of_lt (by omega), Int32.toInt_ofNat_of_lt (by omega)] at heq
    omega

-- ============================================================================
-- Both
-- ============================================================================

/-- A process from which an exception has escaped takes no further step. -/
theorem stuck_of_failed {d : Domain Id S P} (h : u.failed = true) : Stuck d store redis u := by
  intro l
  cases l with
  | start task => simp only [updateStep, h]
  | proceed task => simp only [updateStep, h]

/-- **The two caches agree iff no task races another and no event class is called `T`.**
    Over a store that successful saves of aggregates with events have built up, and as
    long as the streams are in the range of `int`, both ways of filling the cache succeed
    and yield the replay of every stream when no snapshot of an id that `T-Ids` lists
    twice is behind its stream and no stored event is of a class called `T`, and in no
    other case. -/
theorem initializesAlike_iff {w : World Id S P}
    (hreach : Transition.Reachable (sequentialStep d.domain T) World.init w)
    (hsaved : ∀ id ∈ w.store.ids, w.store.aggregate id ≠ [])
    (hsnap : Snapshots d w.store redis) :
    (Short T w.store ∧ Caught w.store redis ∧ NoneNamed T w.store →
      InitializesAlike d.domain T w.store redis) ∧
    (Short T w.store → InitializesAlike d.domain T w.store redis →
      Caught w.store redis ∧ NoneNamed T w.store) := by
  refine ⟨?_, ?_⟩
  · rintro ⟨hshort, hcaught, hnamed⟩
    have htidy := tidy_reachable hreach hshort
    have hstreams := htidy.inv.streams
    have hlisted : ∀ id, id ∈ w.store.ids ↔ w.store.aggregate id ≠ [] :=
      fun id => ⟨hsaved id, htidy.listed id⟩
    refine ⟨fun id hne => ?_, fun shardKey => ?_, fun shardKey ls u hrun hstuck => ?_,
      fun shardKey => ?_⟩
    · rw [replayed_eq hstreams, if_neg hne]
      rfl
    · exact (sound_start shardKey hsnap hcaught hshort.aggregate).completes hstreams
        hshort.aggregate
    · have hsound := (sound_start shardKey hsnap hcaught hshort.aggregate).run hstreams
        hshort.aggregate hrun
      refine ⟨_, initializeCache_eq hsound hstuck hlisted hsnap, initialized_redis hstreams, ?_⟩
      intro id
      show ((Process.initialized d w.store).redis id |>.map (Aggregate.ofSnapshot id)).map
        Aggregate.view = _
      rw [Option.map_map]
      exact Option.map_id'
    · exact inMemoryInitialize_eq hstreams hshort
        (fun id => (htidy.category id).exact (hnamed id)) shardKey
  · intro hshort halike
    have htidy := tidy_reachable hreach hshort
    have hstreams := htidy.inv.streams
    refine ⟨?_, ?_⟩
    · by_contra hbehind
      obtain ⟨ls, u, hrun, hfailed⟩ := exists_failure hsnap hstreams hshort.aggregate hbehind
        fun _ => 0
      obtain ⟨p, hp, -⟩ := halike.cache _ ls u hrun (stuck_of_failed hfailed)
      rw [initializeCache, hfailed] at hp
      cases hp
    · obtain ⟨memory, hrun, -⟩ := halike.inMemory fun _ => 0
      exact noneNamed_of_replay htidy.category hstreams hshort hrun

end Initialize

section Users

open Milde.UserManagement

/-- A user is created and saved, changed and saved again. -/
def savedTwice (drop : Bool) : List (SequentialLabel Nat UserEvent) :=
  let created := UserEvent.created none none 30
  let changed := UserEvent.ageChanged 31
  [.use (.construct 7 41), .use (.raise 0 created.type created), .save 0 drop,
    .use (.raise 0 changed.type changed), .save 0 drop]

def savedTwiceEnd (drop : Bool) : World Nat UserState UserEvent :=
  (Transition.run (sequentialStep userDomain.domain "User") World.init
    (savedTwice drop)).getD World.init

/-- Redis has the snapshot of the first save. -/
def firstSnapshot : RedisHash Nat UserState :=
  fun id => if id = 7 then some ⟨1, 41, none, none, 30⟩ else none

theorem savedTwice_reachable (drop : Bool) :
    Transition.Reachable (sequentialStep userDomain.domain "User") World.init
      (savedTwiceEnd drop) := by
  cases drop with
  | false => exact ⟨savedTwice false, rfl⟩
  | true => exact ⟨savedTwice true, rfl⟩

theorem savedTwice_aggregate (drop : Bool) {id : Nat} (h : id ≠ 7) :
    (savedTwiceEnd drop).store.aggregate id = [] := by
  cases drop with
  | false =>
      show Function.update (Function.update (fun _ => []) 7 _) 7 _ id = _
      rw [Function.update_of_ne h, Function.update_of_ne h]
  | true =>
      show Function.update (Function.update (fun _ => []) 7 _) 7 _ id = _
      rw [Function.update_of_ne h, Function.update_of_ne h]

theorem savedTwice_short (drop : Bool) : Short "User" (savedTwiceEnd drop).store where
  aggregate := by
    intro id
    by_cases h : id = 7
    · subst h
      revert drop
      decide
    · rw [savedTwice_aggregate drop h]
      decide
  category := by
    revert drop
    decide

theorem savedTwice_snapshots (drop : Bool) :
    Snapshots userDomain (savedTwiceEnd drop).store firstSnapshot := by
  intro id v hv
  by_cases h : id = 7
  · subst h
    obtain rfl : (⟨1, 41, none, none, 30⟩ : View UserState) = v := Option.some.inj hv
    refine ⟨?_, 41, 1, ?_⟩
    · revert drop
      decide
    · cases drop with
      | false => rfl
      | true => rfl
  · simp [firstSnapshot, h] at hv

theorem savedTwice_saved (drop : Bool) :
    ∀ id ∈ (savedTwiceEnd drop).store.ids, (savedTwiceEnd drop).store.aggregate id ≠ [] := by
  revert drop
  decide

/-- `T-Ids` drops the second entry, so the one task brings the snapshot up to date. -/
theorem initializesAlike_savedTwice :
    InitializesAlike userDomain.domain "User" (savedTwiceEnd true).store firstSnapshot := by
  refine (initializesAlike_iff (savedTwice_reachable true) (savedTwice_saved true)
    (savedTwice_snapshots true)).1 ⟨savedTwice_short true, ?_, ?_⟩
  · intro id v _ hcount
    have hle : ([7] : List Nat).count id ≤ 1 := List.count_le_length
    exact absurd hcount (Nat.not_lt.mpr hle)
  · intro id
    by_cases h : id = 7
    · subst h
      decide
    · rw [savedTwice_aggregate true h]
      simp

/-- `T-Ids` lists the user twice and the snapshot is behind: both tasks read the second
    event, the first applies it, and the second throws. -/
theorem initialize_fails_savedTwice :
    Transition.Reachable (sequentialStep userDomain.domain "User") World.init
      (savedTwiceEnd false) ∧
    (∀ id ∈ (savedTwiceEnd false).store.ids, (savedTwiceEnd false).store.aggregate id ≠ []) ∧
    Snapshots userDomain (savedTwiceEnd false).store firstSnapshot ∧
    (∃ u, Transition.run (updateStep userDomain.domain (savedTwiceEnd false).store firstSnapshot)
        (Update.start userDomain.domain (savedTwiceEnd false).store firstSnapshot fun _ => 0)
        [.start 0, .start 1, .proceed 0, .proceed 1] = some u ∧
      initializeCache (savedTwiceEnd false).store firstSnapshot u = none) ∧
    ¬ InitializesAlike userDomain.domain "User" (savedTwiceEnd false).store firstSnapshot := by
  let e : AggregateEvent Nat UserEvent :=
    ⟨(UserEvent.ageChanged 31).type, 7, 2, 41, .ageChanged 31⟩
  have hread : orderByVersion (getEvents ((savedTwiceEnd false).store.aggregate 7) 1) = [e] := by
    rw [getEvents_eq_drop]
    exact List.mergeSort_singleton _
  have hids : ∀ k < 2, (savedTwiceEnd false).store.ids[k]? = some 7 := by decide
  have hstart : ∀ (k : Nat) (u : Update Nat UserState UserEvent), k < 2 → u.failed = false →
      u.tasks[k]? = some .waiting → (u.objects (.existing 7)).version = 1 →
      updateStep userDomain.domain (savedTwiceEnd false).store firstSnapshot u (.start k) =
        some { u with tasks := u.tasks.set k (.applying [e]) } := by
    intro k u hk hok ht hv
    have href : refOf firstSnapshot k 7 = .existing 7 := rfl
    simp only [updateStep, hok, ht, hids k hk, href, hv]
    rw [← hread]
    rfl
  have hrun := Transition.run_cons_eq_some.mpr ⟨_, hstart 0
    (Update.start userDomain.domain (savedTwiceEnd false).store firstSnapshot fun _ => 0)
    (by decide) rfl rfl rfl, Transition.run_cons_eq_some.mpr ⟨_, hstart 1 _ (by decide) rfl rfl rfl,
      (rfl : Transition.run _ _ [.proceed 0, .proceed 1] = some _)⟩⟩
  refine ⟨savedTwice_reachable false, savedTwice_saved false, savedTwice_snapshots false,
    ⟨_, hrun, rfl⟩, fun halike => ?_⟩
  obtain ⟨p, hp, -⟩ := halike.cache _ _ _ hrun (stuck_of_failed rfl)
  cases hp

end Users

end Milde.AggregateCache
