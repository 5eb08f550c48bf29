/-
  Milde.AggregateCache.ConcurrentSaves

  One `AggregateCache.Initialize` and any number of `SaveAggregate(s)` calls on the same
  cache (AggregateCache/AggregateCache.cs), interleaved at their await points.

  A save writes Redis and then memory; `Initialize` reads Redis, writes what
  `UpdateAggregates` has returned, reads Redis again and replaces the whole dictionary in
  memory.  Nothing orders the two.  A save is lost in memory when both of its writes come
  between the second read and the replacement, and in Redis when the aggregates that
  `Initialize` writes hold another state of it (`keepsSaves_iff`).
-/
import Milde.AggregateCache.Initialize
import Milde.EventStore.RetriedSave

namespace Milde.AggregateCache

open Milde.EventSourcing

variable {Id S P : Type}

/-- How far a `SaveAggregates` call is. -/
inductive SaveStage where
  | called
  | inRedis
  | completed
deriving DecidableEq, Repr

/-- A `SaveAggregates` call; `SaveAggregate` is the one with a single aggregate. -/
structure CacheSave (Id S P : Type) where
  aggregates : List (Aggregate Id S P)
  stage : SaveStage

/-- How far `Initialize` is: it has the existing aggregates, it has written the updated
    ones, it has read Redis again, it has replaced the dictionary. -/
inductive InitStage (Id S : Type) where
  | called
  | updating (existing : RedisHash Id S)
  | written
  | read (hash : RedisHash Id S)
  | completed

/-- The cache and the calls on it. -/
structure SharedCache (Id S P : Type) where
  redis : RedisHash Id S
  memory : Id → Option (Aggregate Id S P)
  init : InitStage Id S
  saves : List (CacheSave Id S P)

/-- The next store access of the save at a position, or one of `Initialize`;
    `UpdateAggregates` may have returned any list. -/
inductive CacheLabel (Id S P : Type) where
  | saveRedis (i : Nat)
  | saveMemory (i : Nat)
  | getExisting
  | writeUpdated (aggregates : List (Aggregate Id S P))
  | getAll
  | populate

variable [DecidableEq Id]

/-- `InMemoryAggregateCache.SaveAggregates`. -/
def storeAggregates (memory : Id → Option (Aggregate Id S P))
    (aggregates : List (Aggregate Id S P)) : Id → Option (Aggregate Id S P) :=
  aggregates.foldl (fun memory a => Function.update memory a.id (some a)) memory

/-- One step; `none` when the label is not enabled. -/
def cacheStep (c : SharedCache Id S P) : CacheLabel Id S P → Option (SharedCache Id S P)
  | .saveRedis i =>
      match c.saves[i]? with
      | some ⟨aggregates, .called⟩ => some { c with
          redis := saveAggregates c.redis aggregates
          saves := c.saves.set i ⟨aggregates, .inRedis⟩ }
      | _ => none
  | .saveMemory i =>
      match c.saves[i]? with
      | some ⟨aggregates, .inRedis⟩ => some { c with
          memory := storeAggregates c.memory aggregates
          saves := c.saves.set i ⟨aggregates, .completed⟩ }
      | _ => none
  | .getExisting =>
      match c.init with
      | .called => some { c with init := .updating c.redis }
      | _ => none
  | .writeUpdated aggregates =>
      match c.init with
      | .updating _ => some { c with
          redis := saveAggregates c.redis aggregates
          init := .written }
      | _ => none
  | .getAll =>
      match c.init with
      | .written => some { c with init := .read c.redis }
      | _ => none
  | .populate =>
      match c.init with
      | .read hash => some { c with
          memory := populateCache hash
          init := .completed }
      | _ => none

-- ============================================================================
-- Losing no save
-- ============================================================================

/-- `Initialize` and all the saves have completed. -/
def SharedCache.Completed (c : SharedCache Id S P) : Prop :=
  c.init = .completed ∧ ∀ s ∈ c.saves, s.stage = .completed

/-- `GetAggregate` shows every saved aggregate, and memory and Redis agree. -/
structure KeepsSaves (c : SharedCache Id S P) : Prop where
  saved : ∀ s ∈ c.saves, ∀ a ∈ s.aggregates, (c.memory a.id).map Aggregate.view = some a.view
  agree : ∀ id, (c.memory id).map Aggregate.view = c.redis id

/-- The calls are for distinct ids. -/
def DistinctIds (saves : List (CacheSave Id S P)) : Prop :=
  ((saves.flatMap CacheSave.aggregates).map Aggregate.id).Nodup

/-- When `Initialize` writes the updated aggregates, they hold no other state of an
    aggregate that a save has put in Redis; when it replaces the dictionary, what it has read
    of Redis holds every aggregate that a save has put in memory. -/
def SparesSaves (c : SharedCache Id S P) : CacheLabel Id S P → Prop
  | .writeUpdated aggregates => ∀ s ∈ c.saves, s.stage ≠ .called → ∀ a ∈ s.aggregates,
      saveAggregates (fun _ => none) aggregates a.id = none ∨
        saveAggregates (fun _ => none) aggregates a.id = some a.view
  | .populate => ∀ hash, c.init = .read hash → ∀ s ∈ c.saves, s.stage = .completed →
      ∀ a ∈ s.aggregates, hash a.id = some a.view
  | _ => True

-- ============================================================================
-- Reading back what was written
-- ============================================================================

section Stores

variable {aggregates : List (Aggregate Id S P)} {id : Id}

/-- The last aggregate of an id wins, whatever was in the hash. -/
theorem saveAggregates_eq_or (redis : RedisHash Id S) (aggregates : List (Aggregate Id S P))
    (id : Id) : saveAggregates redis aggregates id =
      (saveAggregates (fun _ => none) aggregates id).or (redis id) := by
  induction aggregates generalizing redis with
  | nil => rfl
  | cons a rest ih =>
      show saveAggregates (Function.update redis a.id (some a.view)) rest id =
        (saveAggregates (Function.update (fun _ => none) a.id (some a.view)) rest id).or _
      rw [ih, ih (Function.update (fun _ => none) a.id (some a.view))]
      by_cases hid : id = a.id
      · subst hid
        simp
      · simp [Function.update_of_ne hid]

omit [DecidableEq Id] in
/-- What the dictionary holds after `PopulateCache`. -/
theorem populateCache_view (hash : RedisHash Id S) (id : Id) :
    ((populateCache hash : Id → Option (Aggregate Id S P)) id).map Aggregate.view = hash id := by
  show ((hash id).map (Aggregate.ofSnapshot id)).map Aggregate.view = hash id
  cases hash id with
  | none => rfl
  | some v => rfl

omit [DecidableEq Id] in
/-- Aggregates of one id in the calls are one aggregate of one call. -/
theorem DistinctIds.unique {saves : List (CacheSave Id S P)} (h : DistinctIds saves) {i j : Nat}
    {s t : CacheSave Id S P} {a b : Aggregate Id S P} (hs : saves[i]? = some s)
    (ht : saves[j]? = some t) (ha : a ∈ s.aggregates) (hb : b ∈ t.aggregates)
    (hid : a.id = b.id) : i = j ∧ a = b := by
  induction saves generalizing i j with
  | nil => simp at hs
  | cons head saves ih =>
      simp only [DistinctIds, List.flatMap_cons, List.map_append, List.nodup_append] at h
      obtain ⟨hhead, htail, hdisjoint⟩ := h
      have hmem : ∀ {k : Nat} {r : CacheSave Id S P} {c : Aggregate Id S P},
          saves[k]? = some r → c ∈ r.aggregates →
            c.id ∈ (saves.flatMap CacheSave.aggregates).map Aggregate.id := fun hr hc =>
        List.mem_map_of_mem (List.mem_flatMap.mpr ⟨_, List.mem_of_getElem? hr, hc⟩)
      cases i with
      | zero =>
          obtain rfl : head = s := by simpa using hs
          cases j with
          | zero =>
              obtain rfl : head = t := by simpa using ht
              exact ⟨rfl, List.inj_on_of_nodup_map hhead ha hb hid⟩
          | succ j => exact absurd hid (hdisjoint _ (List.mem_map_of_mem ha) _ (hmem ht hb))
      | succ i =>
          cases j with
          | zero =>
              obtain rfl : head = t := by simpa using ht
              exact absurd hid.symm (hdisjoint _ (List.mem_map_of_mem hb) _ (hmem hs ha))
          | succ j =>
              obtain ⟨rfl, heq⟩ := ih htail hs ht
              exact ⟨rfl, heq⟩

omit [DecidableEq Id] in
/-- A call that goes on is still for the same ids. -/
theorem DistinctIds.set {saves : List (CacheSave Id S P)} (h : DistinctIds saves) {i : Nat}
    {s t : CacheSave Id S P} (hs : saves[i]? = some s) (heq : t.aggregates = s.aggregates) :
    DistinctIds (saves.set i t) := by
  have hmap : (saves.set i t).flatMap CacheSave.aggregates =
      saves.flatMap CacheSave.aggregates := by
    induction saves generalizing i with
    | nil => rfl
    | cons head saves ih =>
        cases i with
        | zero =>
            obtain rfl : head = s := by simpa using hs
            simp [heq]
        | succ i =>
            simp only [DistinctIds, List.flatMap_cons, List.map_append, List.nodup_append] at h
            rw [List.set_cons_succ, List.flatMap_cons, List.flatMap_cons, ih h.2.1 hs]
  rw [DistinctIds, hmap]
  exact h

end Stores

-- ============================================================================
-- What holds of every run
-- ============================================================================

/-- What a run has kept so far. -/
structure SharedCache.Good (c : SharedCache Id S P) : Prop where
  distinct : DistinctIds c.saves
  inRedis : ∀ s ∈ c.saves, s.stage ≠ .called → ∀ a ∈ s.aggregates, c.redis a.id = some a.view
  inMemory : c.init = .completed → ∀ s ∈ c.saves, s.stage = .completed →
    ∀ a ∈ s.aggregates, (c.memory a.id).map Aggregate.view = some a.view
  sinceRead : ∀ hash, c.init = .read hash → ∀ id, c.redis id = hash id ∨
    ∃ s ∈ c.saves, s.stage ≠ .called ∧ ∃ a ∈ s.aggregates, a.id = id
  agree : c.init = .completed → ∀ id, (c.memory id).map Aggregate.view = c.redis id ∨
    ∃ s ∈ c.saves, s.stage = .inRedis ∧ ∃ a ∈ s.aggregates, a.id = id

/-- A save is lost for good: Redis has another state of it and `Initialize` will not write
    again, or memory has. -/
def SharedCache.Lost (c : SharedCache Id S P) : Prop :=
  DistinctIds c.saves ∧ ∃ s ∈ c.saves, ∃ a ∈ s.aggregates,
    (s.stage ≠ .called ∧ c.redis a.id ≠ some a.view ∧
      c.init ≠ .called ∧ ∀ hash, c.init ≠ .updating hash) ∨
    (s.stage = .completed ∧ c.init = .completed ∧
      (c.memory a.id).map Aggregate.view ≠ some a.view)

section Steps

variable {c c' : SharedCache Id S P}

/-- The six things a step does. -/
theorem cacheStep_cases {l : CacheLabel Id S P} (h : cacheStep c l = some c') :
    (∃ i aggregates, l = .saveRedis i ∧ c.saves[i]? = some ⟨aggregates, .called⟩ ∧
      c' = { c with
        redis := saveAggregates c.redis aggregates
        saves := c.saves.set i ⟨aggregates, .inRedis⟩ }) ∨
    (∃ i aggregates, l = .saveMemory i ∧ c.saves[i]? = some ⟨aggregates, .inRedis⟩ ∧
      c' = { c with
        memory := storeAggregates c.memory aggregates
        saves := c.saves.set i ⟨aggregates, .completed⟩ }) ∨
    (l = .getExisting ∧ c.init = .called ∧ c' = { c with init := .updating c.redis }) ∨
    (∃ aggregates existing, l = .writeUpdated aggregates ∧ c.init = .updating existing ∧
      c' = { c with redis := saveAggregates c.redis aggregates, init := .written }) ∨
    (l = .getAll ∧ c.init = .written ∧ c' = { c with init := .read c.redis }) ∨
    (∃ hash, l = .populate ∧ c.init = .read hash ∧
      c' = { c with memory := populateCache hash, init := .completed }) := by
  cases l with
  | saveRedis i =>
      simp only [cacheStep] at h
      split at h
      · exact Or.inl ⟨i, _, rfl, ‹_›, (Option.some.inj h).symm⟩
      · cases h
  | saveMemory i =>
      simp only [cacheStep] at h
      split at h
      · exact Or.inr (Or.inl ⟨i, _, rfl, ‹_›, (Option.some.inj h).symm⟩)
      · cases h
  | getExisting =>
      simp only [cacheStep] at h
      split at h
      · exact Or.inr (Or.inr (Or.inl ⟨rfl, ‹_›, (Option.some.inj h).symm⟩))
      · cases h
  | writeUpdated aggregates =>
      simp only [cacheStep] at h
      split at h
      · exact Or.inr (Or.inr (Or.inr (Or.inl
          ⟨aggregates, _, rfl, ‹_›, (Option.some.inj h).symm⟩)))
      · cases h
  | getAll =>
      simp only [cacheStep] at h
      split at h
      · exact Or.inr (Or.inr (Or.inr (Or.inr (Or.inl ⟨rfl, ‹_›, (Option.some.inj h).symm⟩))))
      · cases h
  | populate =>
      simp only [cacheStep] at h
      split at h
      · exact Or.inr (Or.inr (Or.inr (Or.inr (Or.inr ⟨_, rfl, ‹_›, (Option.some.inj h).symm⟩))))
      · cases h

omit [DecidableEq Id] in
/-- A save that goes on leaves the aggregates of the others alone. -/
theorem DistinctIds.not_mem {saves : List (CacheSave Id S P)} (h : DistinctIds saves) {i j : Nat}
    {s t : CacheSave Id S P} {a : Aggregate Id S P} (hs : saves[i]? = some s)
    (ht : saves[j]? = some t) (hne : j ≠ i) (ha : a ∈ t.aggregates) :
    a.id ∉ s.aggregates.map Aggregate.id := by
  intro hmem
  obtain ⟨b, hb, hid⟩ := List.mem_map.mp hmem
  exact hne (h.unique ht hs ha hb hid.symm).1

/-- A save has written Redis. -/
theorem SharedCache.Good.saveRedis (h : c.Good) {i : Nat} {as : List (Aggregate Id S P)}
    (hs : c.saves[i]? = some ⟨as, .called⟩) :
    SharedCache.Good { c with
      redis := saveAggregates c.redis as
      saves := c.saves.set i ⟨as, .inRedis⟩ } := by
  have hlt := (List.getElem?_eq_some_iff.mp hs).1
  have hnew : (⟨as, .inRedis⟩ : CacheSave Id S P) ∈ c.saves.set i ⟨as, .inRedis⟩ :=
    List.mem_set hlt _
  have hout : ∀ id, id ∉ as.map Aggregate.id → saveAggregates c.redis as id = c.redis id :=
    fun id hid => List.foldl_update_of_notMem hid c.redis
  refine ⟨h.distinct.set hs rfl, ?_, ?_, ?_, ?_⟩
  · intro s hmem hcalled a ha
    show saveAggregates c.redis as a.id = some a.view
    rcases List.mem_set_cases hmem with rfl | ⟨j, hne, hj⟩
    · rw [saveAggregates_apply fun b hb hid =>
          congrArg Aggregate.view (h.distinct.unique hs hs hb ha hid).2,
        if_pos (List.mem_map_of_mem ha)]
    · rw [hout a.id (h.distinct.not_mem hs hj hne ha)]
      exact h.inRedis s (List.mem_of_getElem? hj) hcalled a ha
  · intro hinit s hmem hcompleted a ha
    rcases List.mem_set_cases hmem with rfl | ⟨j, hne, hj⟩
    · cases hcompleted
    · exact h.inMemory hinit s (List.mem_of_getElem? hj) hcompleted a ha
  · intro hash hinit id
    by_cases hid : id ∈ as.map Aggregate.id
    · obtain ⟨a, ha, heq⟩ := List.mem_map.mp hid
      exact Or.inr ⟨_, hnew, nofun, a, ha, heq⟩
    · rcases h.sinceRead hash hinit id with heq | hex
      · exact Or.inl ((hout id hid).trans heq)
      · exact Or.inr (List.exists_mem_set hex hs fun hcalled => absurd rfl hcalled.1)
  · intro hinit id
    by_cases hid : id ∈ as.map Aggregate.id
    · obtain ⟨a, ha, heq⟩ := List.mem_map.mp hid
      exact Or.inr ⟨_, hnew, rfl, a, ha, heq⟩
    · rcases h.agree hinit id with heq | hex
      · exact Or.inl (heq.trans (hout id hid).symm)
      · exact Or.inr (List.exists_mem_set hex hs fun hcalled => by cases hcalled.1)

/-- A save has written memory. -/
theorem SharedCache.Good.saveMemory (h : c.Good) {i : Nat} {as : List (Aggregate Id S P)}
    (hs : c.saves[i]? = some ⟨as, .inRedis⟩) :
    SharedCache.Good { c with
      memory := storeAggregates c.memory as
      saves := c.saves.set i ⟨as, .completed⟩ } := by
  have hold : (⟨as, .inRedis⟩ : CacheSave Id S P) ∈ c.saves := List.mem_of_getElem? hs
  have hin : ∀ a ∈ as, storeAggregates c.memory as a.id = some a := fun a ha =>
    List.foldl_update_of_mem (List.mem_map_of_mem ha)
      (fun b hb hid => congrArg some (h.distinct.unique hs hs hb ha hid).2) c.memory
  have hout : ∀ id, id ∉ as.map Aggregate.id → storeAggregates c.memory as id = c.memory id :=
    fun id hid => List.foldl_update_of_notMem hid c.memory
  refine ⟨h.distinct.set hs rfl, ?_, ?_, ?_, ?_⟩
  · intro s hmem hcalled a ha
    rcases List.mem_set_cases hmem with rfl | ⟨j, hne, hj⟩
    · exact h.inRedis _ hold nofun a ha
    · exact h.inRedis s (List.mem_of_getElem? hj) hcalled a ha
  · intro hinit s hmem hcompleted a ha
    show (storeAggregates c.memory as a.id).map Aggregate.view = some a.view
    rcases List.mem_set_cases hmem with rfl | ⟨j, hne, hj⟩
    · rw [hin a ha]
      rfl
    · rw [hout a.id (h.distinct.not_mem hs hj hne ha)]
      exact h.inMemory hinit s (List.mem_of_getElem? hj) hcompleted a ha
  · intro hash hinit id
    rcases h.sinceRead hash hinit id with heq | hex
    · exact Or.inl heq
    · exact Or.inr (List.exists_mem_set hex hs fun hcalled => ⟨nofun, hcalled.2⟩)
  · intro hinit id
    show (storeAggregates c.memory as id).map Aggregate.view = c.redis id ∨ _
    by_cases hid : id ∈ as.map Aggregate.id
    · obtain ⟨a, ha, rfl⟩ := List.mem_map.mp hid
      left
      rw [hin a ha, h.inRedis _ hold nofun a ha]
      rfl
    · rw [hout id hid]
      rcases h.agree hinit id with heq | ⟨s, hmem, hstage, a, ha, rfl⟩
      · exact Or.inl heq
      · right
        obtain ⟨j, hj⟩ := List.mem_iff_getElem?.mp hmem
        have hne : i ≠ j := by
          rintro rfl
          obtain rfl : ⟨as, .inRedis⟩ = s := Option.some.inj (hs.symm.trans hj)
          exact hid (List.mem_map_of_mem ha)
        exact ⟨s, List.mem_of_getElem? ((List.getElem?_set_ne hne).trans hj), hstage, a, ha, rfl⟩

/-- A step that spares the saves keeps what the run has kept so far. -/
theorem SharedCache.Good.step (h : c.Good) {l : CacheLabel Id S P} (hC : SparesSaves c l)
    (hstep : cacheStep c l = some c') : c'.Good := by
  obtain ⟨i, as, rfl, hs, rfl⟩ | ⟨i, as, rfl, hs, rfl⟩ | ⟨rfl, hi, rfl⟩ |
    ⟨as, existing, rfl, hi, rfl⟩ | ⟨rfl, hi, rfl⟩ | ⟨hash, rfl, hi, rfl⟩ := cacheStep_cases hstep
  · exact h.saveRedis hs
  · exact h.saveMemory hs
  · -- nothing is known yet of what `Initialize` has read
    exact ⟨h.distinct, h.inRedis, nofun, nofun, nofun⟩
  · refine ⟨h.distinct, ?_, nofun, nofun, nofun⟩
    intro s hs hcalled a ha
    show saveAggregates c.redis as a.id = some a.view
    rw [saveAggregates_eq_or]
    rcases hC s hs hcalled a ha with hnone | hsome
    · rw [hnone, Option.none_or]
      exact h.inRedis s hs hcalled a ha
    · rw [hsome, Option.some_or]
  · refine ⟨h.distinct, h.inRedis, nofun, ?_, nofun⟩
    intro hash hinit id
    obtain rfl : c.redis = hash := InitStage.read.inj hinit
    exact Or.inl rfl
  · refine ⟨h.distinct, h.inRedis, ?_, nofun, ?_⟩
    · intro _ s hs hcompleted a ha
      rw [populateCache_view]
      exact hC hash hi s hs hcompleted a ha
    · intro _ id
      show ((populateCache hash : Id → Option (Aggregate Id S P)) id).map _ = c.redis id ∨ _
      rw [populateCache_view]
      rcases h.sinceRead hash hi id with heq | ⟨s, hs, hcalled, a, ha, rfl⟩
      · exact Or.inl heq.symm
      · cases hstage : s.stage with
        | called => exact absurd hstage hcalled
        | inRedis => exact Or.inr ⟨s, hs, hstage, a, ha, rfl⟩
        | completed =>
            left
            rw [hC hash hi s hs hstage a ha, h.inRedis s hs hcalled a ha]

/-- A step that does not spare the saves loses one. -/
theorem SharedCache.Good.lost (h : c.Good) {l : CacheLabel Id S P} (hC : ¬ SparesSaves c l)
    (hstep : cacheStep c l = some c') : c'.Lost := by
  obtain ⟨i, as, rfl, -, rfl⟩ | ⟨i, as, rfl, -, rfl⟩ | ⟨rfl, -, rfl⟩ |
    ⟨as, existing, rfl, -, rfl⟩ | ⟨rfl, -, rfl⟩ | ⟨hash, rfl, hi, rfl⟩ := cacheStep_cases hstep
  · exact absurd trivial hC
  · exact absurd trivial hC
  · exact absurd trivial hC
  · simp only [SparesSaves] at hC
    push Not at hC
    obtain ⟨s, hs, hcalled, a, ha, hnone, hother⟩ := hC
    refine ⟨h.distinct, s, hs, a, ha, Or.inl ⟨hcalled, ?_, ?_, ?_⟩⟩
    · show saveAggregates c.redis as a.id ≠ some a.view
      obtain ⟨v, hv⟩ := Option.ne_none_iff_exists'.mp hnone
      rw [saveAggregates_eq_or, hv, Option.some_or, ← hv]
      exact hother
    · intro hinit
      cases hinit
    · intro hash hinit
      cases hinit
  · exact absurd trivial hC
  · simp only [SparesSaves, hi] at hC
    push Not at hC
    obtain ⟨hash', heq, s, hs, hcompleted, a, ha, hother⟩ := hC
    obtain rfl : hash = hash' := InitStage.read.inj heq
    refine ⟨h.distinct, s, hs, a, ha, Or.inr ⟨hcompleted, rfl, ?_⟩⟩
    show ((populateCache hash : Id → Option (Aggregate Id S P)) a.id).map _ ≠ some a.view
    rw [populateCache_view]
    exact hother

/-- What is lost stays lost. -/
theorem SharedCache.Lost.step (h : c.Lost) {l : CacheLabel Id S P}
    (hstep : cacheStep c l = some c') : c'.Lost := by
  obtain ⟨hdistinct, s, hs, a, ha, hlost⟩ := h
  obtain ⟨k, hk⟩ := List.mem_iff_getElem?.mp hs
  obtain ⟨i, as, rfl, hi, rfl⟩ | ⟨i, as, rfl, hi, rfl⟩ | ⟨rfl, hi, rfl⟩ |
    ⟨as, existing, rfl, hi, rfl⟩ | ⟨rfl, hi, rfl⟩ | ⟨hash, rfl, hi, rfl⟩ := cacheStep_cases hstep
  · -- another save writes Redis, where it has no aggregate with the id
    have hne : k ≠ i := by
      rintro rfl
      obtain rfl : ⟨as, .called⟩ = s := Option.some.inj (hi.symm.trans hk)
      rcases hlost with ⟨hcalled, -⟩ | ⟨hcompleted, -⟩
      · exact hcalled rfl
      · cases hcompleted
    have hout : saveAggregates c.redis as a.id = c.redis a.id :=
      List.foldl_update_of_notMem (hdistinct.not_mem hi hk hne ha) c.redis
    refine ⟨hdistinct.set hi rfl, s,
      List.mem_of_getElem? ((List.getElem?_set_ne hne.symm).trans hk), a, ha, ?_⟩
    simp only [hout]
    exact hlost
  · by_cases hki : k = i
    · subst hki
      obtain rfl : ⟨as, .inRedis⟩ = s := Option.some.inj (hi.symm.trans hk)
      rcases hlost with ⟨-, hredis⟩ | ⟨hcompleted, -⟩
      · have hstage : SaveStage.completed ≠ .called := by decide
        exact ⟨hdistinct.set hi rfl, ⟨as, .completed⟩,
          List.mem_set (List.getElem?_eq_some_iff.mp hi).1 _, a, ha, Or.inl ⟨hstage, hredis⟩⟩
      · cases hcompleted
    · have hout : storeAggregates c.memory as a.id = c.memory a.id :=
        List.foldl_update_of_notMem (hdistinct.not_mem hi hk hki ha) c.memory
      refine ⟨hdistinct.set hi rfl, s,
        List.mem_of_getElem? ((List.getElem?_set_ne (Ne.symm hki)).trans hk), a, ha, ?_⟩
      simp only [hout]
      exact hlost
  · rcases hlost with ⟨-, -, hinit, -⟩ | ⟨-, hinit, -⟩
    · exact absurd hi hinit
    · cases hi.symm.trans hinit
  · rcases hlost with ⟨-, -, -, hinit⟩ | ⟨-, hinit, -⟩
    · exact absurd hi (hinit existing)
    · cases hi.symm.trans hinit
  · rcases hlost with ⟨hcalled, hredis, -⟩ | ⟨-, hinit, -⟩
    · refine ⟨hdistinct, s, hs, a, ha, Or.inl ⟨hcalled, hredis, ?_, ?_⟩⟩
      · intro hinit
        cases hinit
      · intro hash hinit
        cases hinit
    · cases hi.symm.trans hinit
  · rcases hlost with ⟨hcalled, hredis, -⟩ | ⟨-, hinit, -⟩
    · refine ⟨hdistinct, s, hs, a, ha, Or.inl ⟨hcalled, hredis, ?_, ?_⟩⟩
      · intro hinit
        cases hinit
      · intro hash hinit
        cases hinit
    · cases hi.symm.trans hinit

omit [DecidableEq Id] in
theorem SharedCache.Good.keepsSaves (h : c.Good) (hdone : c.Completed) : KeepsSaves c := by
  refine ⟨fun s hs => h.inMemory hdone.1 s hs (hdone.2 s hs), fun id => ?_⟩
  rcases h.agree hdone.1 id with heq | ⟨s, hs, hstage, -⟩
  · exact heq
  · rw [hdone.2 s hs] at hstage
    cases hstage

omit [DecidableEq Id] in
theorem SharedCache.Lost.not_keepsSaves (h : c.Lost) : ¬ KeepsSaves c := by
  intro hkeeps
  obtain ⟨-, s, hs, a, ha, ⟨-, hredis, -⟩ | ⟨-, -, hmemory⟩⟩ := h
  · exact hredis ((hkeeps.agree a.id).symm.trans (hkeeps.saved s hs a ha))
  · exact hmemory (hkeeps.saved s hs a ha)

/-- **No concurrent save is lost** by `Initialize` iff each of its two writes spares the
    saves. -/
theorem keepsSaves_iff {redis : RedisHash Id S} {memory : Id → Option (Aggregate Id S P)}
    {saves : List (CacheSave Id S P)} (hdistinct : DistinctIds saves)
    (hcalled : ∀ s ∈ saves, s.stage = .called) {ls : List (CacheLabel Id S P)}
    (hrun : Transition.run cacheStep ⟨redis, memory, .called, saves⟩ ls = some c)
    (hdone : c.Completed) :
    KeepsSaves c ↔ Transition.Along cacheStep SparesSaves ⟨redis, memory, .called, saves⟩ ls := by
  have hstart : SharedCache.Good ⟨redis, memory, .called, saves⟩ :=
    ⟨hdistinct, fun s hs hstage => absurd (hcalled s hs) hstage, nofun, nofun, nofun⟩
  exact Transition.last_iff_along (I := SharedCache.Good) (B := SharedCache.Lost)
    (E := SharedCache.Completed) (fun _ _ _ h hC hstep => h.step hC hstep)
    (fun _ _ _ h hC hstep => h.lost hC hstep) (fun _ _ _ h hstep => h.step hstep)
    (fun _ h hdone => h.keepsSaves hdone) (fun _ h _ => h.not_keepsSaves) hstart hrun hdone

end Steps

-- ============================================================================
-- A user saved while the cache is initialized
-- ============================================================================

section Users

open Milde.EventStore Milde.UserManagement

/-- The cache of a first start, and the save of user 7. -/
def emptyCache : SharedCache Nat UserState UserEvent :=
  ⟨fun _ => none, fun _ => none, .called, [⟨[createdUser], .called⟩]⟩

theorem emptyCache_distinct : DistinctIds emptyCache.saves := List.nodup_singleton _

/-- Both writes of the save come before `Initialize` reads Redis again, or after it. -/
def savedAround (first : Bool) : List (CacheLabel Nat UserState UserEvent) :=
  if first then [.getExisting, .writeUpdated [], .saveRedis 0, .saveMemory 0, .getAll, .populate]
  else [.getExisting, .writeUpdated [], .getAll, .saveRedis 0, .saveMemory 0, .populate]

def savedAroundEnd (first : Bool) : SharedCache Nat UserState UserEvent where
  redis := saveAggregates (fun _ => none) [createdUser]
  memory := populateCache (if first then saveAggregates (fun _ => none) [createdUser]
    else fun _ => none)
  init := .completed
  saves := [⟨[createdUser], .completed⟩]

theorem savedAround_run (first : Bool) :
    Transition.run cacheStep emptyCache (savedAround first) = some (savedAroundEnd first) := by
  cases first with
  | false => rfl
  | true => rfl

theorem savedAroundEnd_completed (first : Bool) : (savedAroundEnd first).Completed :=
  ⟨rfl, fun s hs => by rw [List.mem_singleton.mp hs]⟩

theorem keepsSaves_createdUser : KeepsSaves (savedAroundEnd true) := by
  refine (keepsSaves_iff emptyCache_distinct (by decide)
    (savedAround_run true) (savedAroundEnd_completed true)).mpr ?_
  refine (Transition.along_cons rfl).mpr ⟨trivial, (Transition.along_cons rfl).mpr ⟨?_,
    (Transition.along_cons rfl).mpr ⟨trivial, (Transition.along_cons rfl).mpr ⟨trivial,
      (Transition.along_cons rfl).mpr ⟨trivial, (Transition.along_cons rfl).mpr ⟨?_, trivial⟩⟩⟩⟩⟩⟩
  · exact fun _ _ _ _ _ => Or.inl rfl
  · intro hash hinit s hs _ a ha
    obtain rfl := InitStage.read.inj hinit
    obtain rfl := List.mem_singleton.mp hs
    obtain rfl := List.mem_singleton.mp ha
    rfl

/-- The second read has returned before the save, and the dictionary is replaced after it:
    `GetAggregate` returns nothing, and Redis has the user. -/
theorem keepsSaves_fails_createdUser :
    DistinctIds emptyCache.saves ∧
      Transition.run cacheStep emptyCache (savedAround false) = some (savedAroundEnd false) ∧
      (savedAroundEnd false).Completed ∧ ¬ KeepsSaves (savedAroundEnd false) := by
  refine ⟨emptyCache_distinct, savedAround_run false, savedAroundEnd_completed false, fun h => ?_⟩
  have hsaved := h.saved _ List.mem_cons_self createdUser List.mem_cons_self
  cases hsaved

end Users

end Milde.AggregateCache
