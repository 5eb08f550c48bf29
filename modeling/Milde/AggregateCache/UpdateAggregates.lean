/-
  Milde.AggregateCache.UpdateAggregates

  `EventStore.UpdateAggregates` (EventStore/EventStore/EventStore.cs): one asynchronous
  task for each entry of `T-Ids`, all of them at once.

  A task takes the existing object of its id, or makes a new one, and reads the stream
  from the object's version on; when the read returns it sorts what it got and applies
  it event by event.  Tasks take turns in any order.  Two entries of one id share an
  existing object, and nothing keeps their tasks apart.
-/
import Milde.Common.Lists
import Milde.Common.Run
import Milde.EventStore.SaveAggregate

namespace Milde.AggregateCache

open Milde.EventSourcing Milde.EventStore

variable {Id S P : Type}

/-- The object of a task: an existing one, named by its id, or one that the task made. -/
inductive Ref (Id : Type) where
  | existing (id : Id)
  | own (task : Nat) (id : Id)
deriving DecidableEq, Repr

/-- A task: not yet called, applying what it has read, or at its end. -/
inductive UpdateTask (Id P : Type) where
  | waiting
  | applying (rest : List (AggregateEvent Id P))
  | finished
deriving DecidableEq, Repr

/-- The objects, the tasks, the list `aggregates` in the order of `Add`, and whether an
    exception has escaped from a task. -/
structure Update (Id S P : Type) where
  objects : Ref Id → Aggregate Id S P
  tasks : List (UpdateTask Id P)
  added : List (Ref Id)
  failed : Bool

inductive UpdateLabel where
  | start (task : Nat)
  | proceed (task : Nat)
deriving DecidableEq, Repr

/-- A Redis hash: for each id the snapshot in its field. -/
abbrev RedisHash (Id S : Type) := Id → Option (View S)

/-- `existingAggregates.SingleOrDefault(a => a.Id == aggregateId) ?? CreateInstance(…)`. -/
def refOf (redis : RedisHash Id S) (task : Nat) (id : Id) : Ref Id :=
  if (redis id).isSome then .existing id else .own task id

/-- The objects before any task has run: those deserialized from Redis and new ones, each
    with a shard key of its own. -/
def objectOf (d : Domain Id S P) (redis : RedisHash Id S) (shardKey : Nat → Int32) :
    Ref Id → Aggregate Id S P
  | .existing id => Aggregate.ofSnapshot id ((redis id).getD (Aggregate.new d id 0).view)
  | .own task id => Aggregate.new d id (shardKey task)

/-- The call of `UpdateAggregates`: a task for each entry of `T-Ids`, none begun. -/
def Update.start (d : Domain Id S P) (store : Store Id P) (redis : RedisHash Id S)
    (shardKey : Nat → Int32) : Update Id S P where
  objects := objectOf d redis shardKey
  tasks := store.ids.map fun _ => .waiting
  added := []
  failed := false

variable [DecidableEq Id]

/-- One step of one task.  An exception that escapes ends the process. -/
def updateStep (d : Domain Id S P) (store : Store Id P) (redis : RedisHash Id S)
    (u : Update Id S P) : UpdateLabel → Option (Update Id S P)
  | .start task =>
      match u.failed, u.tasks[task]?, store.ids[task]? with
      | false, some .waiting, some id =>
          let a := u.objects (refOf redis task id)
          if a.version < 0 then some { u with failed := true }
          else
            let events := getEvents (store.aggregate id) a.version.toInt.toNat
            some { u with tasks := u.tasks.set task (.applying (orderByVersion events)) }
      | _, _, _ => none
  | .proceed task =>
      match u.failed, u.tasks[task]?, store.ids[task]? with
      | false, some (.applying []), some id =>
          some { u with
            tasks := u.tasks.set task .finished
            added := u.added ++ [refOf redis task id] }
      | false, some (.applying (e :: rest)), some id =>
          match (u.objects (refOf redis task id)).applyEvent d e with
          | .returned a =>
              some { u with
                objects := Function.update u.objects (refOf redis task id) a
                tasks := u.tasks.set task (.applying rest) }
          | .threw a =>
              some { u with
                objects := Function.update u.objects (refOf redis task id) a
                failed := true }
      | _, _, _ => none

/-- No task can go on: all have ended, or an exception has escaped. -/
def Stuck (d : Domain Id S P) (store : Store Id P) (redis : RedisHash Id S)
    (u : Update Id S P) : Prop :=
  ∀ l, updateStep d store redis u l = none

-- ============================================================================
-- What a step can do
-- ============================================================================

section Steps

variable {d : Domain Id S P} {store : Store Id P} {redis : RedisHash Id S}
  {u u' : Update Id S P}

theorem updateStep_cases {l : UpdateLabel} (h : updateStep d store redis u l = some u') :
    u.failed = false ∧ ∃ task id, store.ids[task]? = some id ∧
      ((u.tasks[task]? = some .waiting ∧ l = .start task ∧
          (u.objects (refOf redis task id)).version < 0 ∧ u' = { u with failed := true }) ∨
        (u.tasks[task]? = some .waiting ∧ l = .start task ∧
          ¬ (u.objects (refOf redis task id)).version < 0 ∧
          u' = { u with tasks := u.tasks.set task (.applying (orderByVersion
            (getEvents (store.aggregate id)
              (u.objects (refOf redis task id)).version.toInt.toNat))) }) ∨
        (u.tasks[task]? = some (.applying []) ∧ l = .proceed task ∧
          u' = { u with
            tasks := u.tasks.set task .finished
            added := u.added ++ [refOf redis task id] }) ∨
        (∃ e rest a, u.tasks[task]? = some (.applying (e :: rest)) ∧ l = .proceed task ∧
          (u.objects (refOf redis task id)).applyEvent d e = .returned a ∧
          u' = { u with
            objects := Function.update u.objects (refOf redis task id) a
            tasks := u.tasks.set task (.applying rest) }) ∨
        (∃ e rest a, u.tasks[task]? = some (.applying (e :: rest)) ∧ l = .proceed task ∧
          (u.objects (refOf redis task id)).applyEvent d e = .threw a ∧
          u' = { u with
            objects := Function.update u.objects (refOf redis task id) a
            failed := true })) := by
  cases l with
  | start task =>
      simp only [updateStep] at h
      split at h
      · rename_i id hok htask hid
        refine ⟨hok, task, id, hid, ?_⟩
        split at h
        · exact Or.inl ⟨htask, rfl, ‹_›, (Option.some.inj h).symm⟩
        · exact Or.inr (Or.inl ⟨htask, rfl, ‹_›, (Option.some.inj h).symm⟩)
      · cases h
  | proceed task =>
      simp only [updateStep] at h
      split at h
      · rename_i id hok htask hid
        exact ⟨hok, task, id, hid,
          Or.inr (Or.inr (Or.inl ⟨htask, rfl, (Option.some.inj h).symm⟩))⟩
      · rename_i e rest id hok htask hid
        refine ⟨hok, task, id, hid, ?_⟩
        split at h
        · rename_i a ha
          exact Or.inr (Or.inr (Or.inr (Or.inl
            ⟨e, rest, a, htask, rfl, ha, (Option.some.inj h).symm⟩)))
        · rename_i a ha
          exact Or.inr (Or.inr (Or.inr (Or.inr
            ⟨e, rest, a, htask, rfl, ha, (Option.some.inj h).symm⟩)))
      · cases h

/-- A task that is not finished can go on. -/
theorem task_enabled (hok : u.failed = false) (htasks : u.tasks.length = store.ids.length)
    {k : Nat} {t : UpdateTask Id P} (ht : u.tasks[k]? = some t) (hne : t ≠ .finished) :
    ∃ l u', updateStep d store redis u l = some u' := by
  have hlt : k < store.ids.length := by
    rw [← htasks]
    exact (List.getElem?_eq_some_iff.mp ht).1
  have hid := List.getElem?_eq_getElem hlt
  cases t with
  | waiting =>
      refine ⟨.start k, ?_⟩
      simp only [updateStep, hok, ht, hid]
      split
      · exact ⟨_, rfl⟩
      · exact ⟨_, rfl⟩
  | applying rest =>
      refine ⟨.proceed k, ?_⟩
      cases rest with
      | nil =>
          simp only [updateStep, hok, ht, hid]
          exact ⟨_, rfl⟩
      | cons e rest =>
          simp only [updateStep, hok, ht, hid]
          split
          · exact ⟨_, rfl⟩
          · exact ⟨_, rfl⟩
  | finished => exact absurd rfl hne

theorem finished_of_stuck (hok : u.failed = false) (htasks : u.tasks.length = store.ids.length)
    (hstuck : Stuck d store redis u) {k : Nat} {t : UpdateTask Id P} (ht : u.tasks[k]? = some t) :
    t = .finished := by
  by_contra hne
  obtain ⟨l, u', hstep⟩ := task_enabled hok htasks ht hne
  rw [hstuck l] at hstep
  cases hstep

theorem stuck_of_finished (h : ∀ t ∈ u.tasks, t = .finished) : Stuck d store redis u := by
  have hnot : ∀ (k : Nat) (t : UpdateTask Id P), t ≠ .finished → u.tasks[k]? ≠ some t :=
    fun k t hne ht => hne (h t (List.mem_of_getElem? ht))
  intro l
  cases l with
  | start k =>
      simp only [updateStep]
      split
      · exact absurd ‹_› (hnot k .waiting (by simp))
      · rfl
  | proceed k =>
      simp only [updateStep]
      split
      · exact absurd ‹_› (hnot k (.applying []) (by simp))
      · exact absurd ‹_› (hnot k (.applying _) (by simp))
      · rfl

end Steps

-- ============================================================================
-- The invariant
-- ============================================================================

/-- The object is the replay of `evs`, some of which it may still list as changes. -/
def Builds (d : TotalDomain Id S P) (id : Id) (a : Aggregate Id S P)
    (evs : List (AggregateEvent Id P)) : Prop :=
  ∃ sk loaded changes, a = built d id sk loaded changes ∧ loaded ++ changes = evs

/-- How far a task is: what its object has and what it has yet to apply make up the
    stream. -/
def Progress (d : TotalDomain Id S P) (id : Id) (stream : List (AggregateEvent Id P))
    (a : Aggregate Id S P) : UpdateTask Id P → Prop
  | .waiting => ∃ evs, Builds d id a evs ∧ evs <+: stream
  | .applying rest => ∃ evs, Builds d id a evs ∧ evs ++ rest = stream
  | .finished => Builds d id a stream

/-- The fields of the hash are snapshots of prefixes of stored histories. -/
def Snapshots (d : TotalDomain Id S P) (store : Store Id P) (redis : RedisHash Id S) : Prop :=
  ∀ id v, redis id = some v → store.aggregate id ≠ [] ∧
    ∃ sk n, v = viewOf d sk ((store.aggregate id).take n)

/-- No snapshot is behind its stream when `T-Ids` lists its id more than once. -/
def Caught (store : Store Id P) (redis : RedisHash Id S) : Prop :=
  ∀ id v, redis id = some v → 1 < store.ids.count id →
    v.version = Int32.ofNat (store.aggregate id).length

/-- What the tasks have done so far.  An object that two tasks share was complete from
    the start. -/
structure Sound (d : TotalDomain Id S P) (store : Store Id P) (redis : RedisHash Id S)
    (u : Update Id S P) : Prop where
  ok : u.failed = false
  tasks : u.tasks.length = store.ids.length
  progress : ∀ (k : Nat) id t, store.ids[k]? = some id → u.tasks[k]? = some t →
    Progress d id (store.aggregate id) (u.objects (refOf redis k id)) t
  shared : ∀ id, (redis id).isSome → 1 < store.ids.count id →
    Builds d id (u.objects (.existing id)) (store.aggregate id)
  added : ∀ r, r ∈ u.added ↔ ∃ (k : Nat) (id : Id), store.ids[k]? = some id ∧
    u.tasks[k]? = some .finished ∧ r = refOf redis k id

section Builds

variable {d : TotalDomain Id S P} {id : Id} {a : Aggregate Id S P}
  {evs stream : List (AggregateEvent Id P)}

omit [DecidableEq Id] in
theorem Builds.id_eq (h : Builds d id a evs) : a.id = id := by
  obtain ⟨sk, loaded, changes, rfl, -⟩ := h
  rfl

omit [DecidableEq Id] in
theorem Builds.version (h : Builds d id a evs) : a.version = Int32.ofNat evs.length := by
  obtain ⟨sk, loaded, changes, rfl, rfl⟩ := h
  rw [built_version, List.length_append]

omit [DecidableEq Id] in
theorem Builds.view (h : Builds d id a evs) (hne : evs ≠ []) : a.view = viewOf d 0 evs := by
  obtain ⟨sk, loaded, changes, rfl, rfl⟩ := h
  rw [built_view]
  exact viewOf_eq_of_ne_nil d hne sk 0

omit [DecidableEq Id] in
/-- Objects that have read different amounts of a stream differ in version. -/
theorem Builds.inj {evs' : List (AggregateEvent Id P)} (h : Builds d id a evs)
    (h' : Builds d id a evs') (hevs : evs <+: stream) (hevs' : evs' <+: stream)
    (hshort : stream.length < 2 ^ 31 - 1) : evs = evs' := by
  have hlen := hevs.length_le
  have hlen' := hevs'.length_le
  have heq : evs.length = evs'.length := by
    have hversion := congrArg Int32.toInt (h.version.symm.trans h'.version)
    rw [Int32.toInt_ofNat_of_lt (by omega), Int32.toInt_ofNat_of_lt (by omega)] at hversion
    omega
  exact (List.prefix_of_prefix_length_le hevs hevs' (Nat.le_of_eq heq)).eq_of_length heq

/-- The next event of the stream is applied when the domain part accepts it. -/
theorem Builds.apply_accepted {d : Domain Id S P} {e : AggregateEvent Id P}
    (h : Builds d.total id a evs) (hhist : History id (evs ++ [e]))
    (haccepts : d.Accepts d.init (evs ++ [e])) :
    ∃ a', a.applyEvent d e = .returned a' ∧ Builds d.total id a' (evs ++ [e]) := by
  obtain ⟨sk, loaded, changes, rfl, rfl⟩ := h
  exact ⟨_, applyEvent_accepted d sk hhist haccepts, sk, loaded, changes ++ [e], rfl,
    (List.append_assoc ..).symm⟩

theorem Builds.apply {e : AggregateEvent Id P} (h : Builds d id a evs)
    (hhist : History id (evs ++ [e])) :
    ∃ a', a.applyEvent d.domain e = .returned a' ∧ Builds d id a' (evs ++ [e]) :=
  Builds.apply_accepted (d := d.domain) h hhist (d.accepts _ _)

omit [DecidableEq Id] in
theorem builds_new (d : TotalDomain Id S P) (id : Id) (sk : Int32) :
    Builds d id (Aggregate.new d.domain id sk) [] := ⟨sk, [], [], rfl, rfl⟩

omit [DecidableEq Id] in
theorem builds_ofSnapshot (d : TotalDomain Id S P) (id : Id) (sk : Int32)
    (evs : List (AggregateEvent Id P)) :
    Builds d id (Aggregate.ofSnapshot id (viewOf d sk evs)) evs :=
  ⟨sk, evs, [], ofSnapshot_viewOf d id sk evs, List.append_nil evs⟩

omit [DecidableEq Id] in
/-- What a task reads: the events that its object has not seen, in their order. -/
theorem Builds.read (h : Builds d id a evs) (hevs : evs <+: stream)
    (hhist : History id stream) (hshort : stream.length < 2 ^ 31 - 1) :
    ¬ a.version < 0 ∧
      evs ++ orderByVersion (getEvents stream a.version.toInt.toNat) = stream := by
  obtain ⟨tail, rfl⟩ := hevs
  rw [List.length_append] at hshort
  have hv : a.version.toInt = (evs.length : Int) := by
    rw [h.version]
    exact Int32.toInt_ofNat_of_lt (by omega)
  have hnum := (Numbered.append_iff.mp hhist.numbered).2
  refine ⟨?_, ?_⟩
  · rw [Int32.lt_iff_toInt_lt, hv, Int32.toInt_zero]
    omega
  · rw [getEvents_eq_drop, hv, Int.toNat_natCast, List.drop_left,
      orderByVersion_of_numbered hnum (by omega)]

end Builds

section Sound

variable {d : TotalDomain Id S P} {store : Store Id P} {redis : RedisHash Id S}
  {shardKey : Nat → Int32} {u u' : Update Id S P}

/-- Two tasks with one object: an existing one, whose id is listed twice. -/
theorem refOf_inj {k k' : Nat} {id id' : Id} (hid : store.ids[k]? = some id)
    (hid' : store.ids[k']? = some id') (hne : k ≠ k')
    (h : refOf redis k id = refOf redis k' id') :
    id = id' ∧ (redis id).isSome ∧ 1 < store.ids.count id ∧ refOf redis k id = .existing id := by
  unfold refOf at h ⊢
  split at h
  · rename_i hsome
    rw [if_pos hsome]
    split at h
    · obtain rfl : id = id' := Ref.existing.inj h
      refine ⟨rfl, hsome, ?_, rfl⟩
      rcases Nat.lt_or_gt_of_ne hne with hlt | hlt
      · exact List.one_lt_count_iff.mpr ⟨k, k', hlt, hid, hid'⟩
      · exact List.one_lt_count_iff.mpr ⟨k', k, hlt, hid', hid⟩
    · cases h
  · split at h
    · cases h
    · exact absurd (Ref.own.inj h).1 hne

/-- Before any task has run. -/
theorem sound_start (shardKey : Nat → Int32) (hsnap : Snapshots d store redis)
    (hcaught : Caught store redis)
    (hshort : ∀ id, (store.aggregate id).length < 2 ^ 31 - 1) :
    Sound d store redis (Update.start d.domain store redis shardKey) where
  ok := rfl
  tasks := List.length_map ..
  progress := by
    intro k id t hid ht
    obtain rfl : t = .waiting := by
      simp only [Update.start, List.getElem?_map, hid, Option.map_some, Option.some.injEq] at ht
      exact ht.symm
    show ∃ evs, Builds d id (objectOf d.domain redis shardKey (refOf redis k id)) evs ∧ _
    unfold refOf
    split
    · rename_i hsome
      obtain ⟨v, hv⟩ := Option.isSome_iff_exists.mp hsome
      obtain ⟨-, sk, n, rfl⟩ := hsnap id v hv
      refine ⟨(store.aggregate id).take n, ?_, List.take_prefix n _⟩
      simp only [objectOf, hv, Option.getD_some]
      exact builds_ofSnapshot d id sk _
    · exact ⟨[], builds_new d id (shardKey k), List.nil_prefix⟩
  shared := by
    intro id hsome hcount
    obtain ⟨v, hv⟩ := Option.isSome_iff_exists.mp hsome
    obtain ⟨-, sk, n, rfl⟩ := hsnap id v hv
    have hb : Builds d id (Aggregate.ofSnapshot id (viewOf d sk ((store.aggregate id).take n)))
        ((store.aggregate id).take n) := builds_ofSnapshot d id sk _
    -- the versions agree, so the snapshot is of the whole stream
    have hpre := List.take_prefix n (store.aggregate id)
    have hversion := congrArg Int32.toInt (hcaught id _ hv hcount)
    have hlen := hpre.length_le
    have hshort := hshort id
    simp only [viewOf] at hversion
    rw [Int32.toInt_ofNat_of_lt (by omega), Int32.toInt_ofNat_of_lt (by omega)] at hversion
    have hall : (store.aggregate id).take n = store.aggregate id :=
      hpre.eq_of_length (by omega)
    show Builds d id (Aggregate.ofSnapshot id ((redis id).getD _)) _
    rw [hv, Option.getD_some]
    rw [hall] at hb ⊢
    exact hb
  added := by
    intro r
    simp only [Update.start, List.not_mem_nil, List.getElem?_map, false_iff, not_exists, not_and]
    intro k id hid ht
    rw [hid] at ht
    simp at ht

/-- One task moves on: what the others have done stands. -/
theorem Sound.setTask (h : Sound d store redis u) {k : Nat} {id : Id} {t : UpdateTask Id P}
    (hid : store.ids[k]? = some id) {t₀ : UpdateTask Id P} (ht₀ : u.tasks[k]? = some t₀)
    {objects : Ref Id → Aggregate Id S P} {added : List (Ref Id)}
    (hothers : ∀ (k' : Nat) (id' : Id), k' ≠ k → store.ids[k']? = some id' →
      objects (refOf redis k' id') = u.objects (refOf redis k' id'))
    (hshared : ∀ id', (redis id').isSome → 1 < store.ids.count id' →
      objects (.existing id') = u.objects (.existing id'))
    (hprogress : Progress d id (store.aggregate id) (objects (refOf redis k id)) t)
    (hadded : t = .finished ∧ added = u.added ++ [refOf redis k id] ∨
      t ≠ .finished ∧ t₀ ≠ .finished ∧ added = u.added) :
    Sound d store redis { u with objects, tasks := u.tasks.set k t, added } := by
  have hlt := (List.getElem?_eq_some_iff.mp ht₀).1
  have hself : (u.tasks.set k t)[k]? = some t := List.getElem?_set_self hlt
  have hother : ∀ k', k' ≠ k → (u.tasks.set k t)[k']? = u.tasks[k']? :=
    fun k' hne => List.getElem?_set_ne (Ne.symm hne)
  refine ⟨h.ok, (List.length_set ..).trans h.tasks, ?_, ?_, ?_⟩
  · intro k' id' t' hid' ht'
    by_cases hk : k' = k
    · subst hk
      obtain rfl : id = id' := Option.some.inj (hid.symm.trans hid')
      obtain rfl : t = t' := Option.some.inj (hself.symm.trans ht')
      exact hprogress
    · show Progress d id' _ (objects (refOf redis k' id')) t'
      rw [hothers k' id' hk hid']
      exact h.progress k' id' t' hid' ((hother k' hk).symm.trans ht')
  · intro id' hsome hcount
    show Builds d id' (objects (.existing id')) _
    rw [hshared id' hsome hcount]
    exact h.shared id' hsome hcount
  · intro r
    rcases hadded with ⟨rfl, rfl⟩ | ⟨hne, hne₀, rfl⟩
    · rw [List.mem_append, List.mem_singleton, h.added]
      refine ⟨?_, ?_⟩
      · rintro (⟨k', id', hid', ht', rfl⟩ | rfl)
        · by_cases hk : k' = k
          · subst hk
            exact ⟨k', id', hid', hself, rfl⟩
          · exact ⟨k', id', hid', (hother k' hk).trans ht', rfl⟩
        · exact ⟨k, id, hid, hself, rfl⟩
      · rintro ⟨k', id', hid', ht', rfl⟩
        by_cases hk : k' = k
        · subst hk
          obtain rfl : id = id' := Option.some.inj (hid.symm.trans hid')
          exact Or.inr rfl
        · exact Or.inl ⟨k', id', hid', (hother k' hk).symm.trans ht', rfl⟩
    · rw [h.added]
      have hiff : ∀ k' : Nat, (u.tasks.set k t)[k']? = some .finished ↔
          u.tasks[k']? = some .finished := by
        intro k'
        by_cases hk : k' = k
        · subst hk
          rw [hself, ht₀]
          simp [hne, hne₀]
        · rw [hother k' hk]
      simp only [hiff]

/-- An object that still has events to come is one task's alone. -/
theorem Sound.alone (h : Sound d store redis u) {k : Nat} {id : Id} {e : AggregateEvent Id P}
    {rest : List (AggregateEvent Id P)}
    (hshort : (store.aggregate id).length < 2 ^ 31 - 1) (hid : store.ids[k]? = some id)
    (ht : u.tasks[k]? = some (.applying (e :: rest))) {id' : Id} (hsome : (redis id').isSome)
    (hcount : 1 < store.ids.count id') : refOf redis k id ≠ .existing id' := by
  intro href
  have hid' : id = id' := by
    unfold refOf at href
    split at href
    · exact Ref.existing.inj href
    · cases href
  subst hid'
  obtain ⟨evs, hevs, hstream⟩ := h.progress k id _ hid ht
  have hall := h.shared id hsome hcount
  rw [href] at hevs
  have heq := hevs.inj hall ⟨_, hstream⟩ List.prefix_rfl hshort
  rw [heq] at hstream
  simp at hstream

/-- Every step of a task is sound. -/
theorem Sound.step (h : Sound d store redis u) (hstreams : ∀ id, History id (store.aggregate id))
    (hshort : ∀ id, (store.aggregate id).length < 2 ^ 31 - 1) {l : UpdateLabel}
    (hstep : updateStep d.domain store redis u l = some u') : Sound d store redis u' := by
  obtain ⟨-, k, id, hid, ⟨ht, -, hneg, -⟩ | ⟨ht, -, hneg, rfl⟩ | ⟨ht, -, rfl⟩ |
    ⟨e, rest, a, ht, -, happly, rfl⟩ | ⟨e, rest, a, ht, -, happly, -⟩⟩ := updateStep_cases hstep
  · obtain ⟨evs, hevs, hpre⟩ := h.progress k id _ hid ht
    exact absurd hneg (hevs.read hpre (hstreams id) (hshort id)).1
  · obtain ⟨evs, hevs, hpre⟩ := h.progress k id _ hid ht
    refine h.setTask hid ht (fun _ _ _ _ => rfl) (fun _ _ _ => rfl) ?_
      (Or.inr ⟨by simp, by simp, rfl⟩)
    exact ⟨evs, hevs, (hevs.read hpre (hstreams id) (hshort id)).2⟩
  · obtain ⟨evs, hevs, hstream⟩ := h.progress k id _ hid ht
    refine h.setTask hid ht (fun _ _ _ _ => rfl) (fun _ _ _ => rfl) ?_ (Or.inl ⟨rfl, rfl⟩)
    rw [List.append_nil] at hstream
    rw [hstream] at hevs
    exact hevs
  · obtain ⟨evs, hevs, hstream⟩ := h.progress k id _ hid ht
    have hpre : evs ++ [e] <+: store.aggregate id := ⟨rest, by rw [← hstream]; simp⟩
    obtain ⟨a', happly', hevs'⟩ := hevs.apply ((hstreams id).of_isPrefix hpre)
    obtain rfl : a' = a := Outcome.returned.inj (happly'.symm.trans happly)
    refine h.setTask hid ht (fun k' id' hk hid' => ?_) (fun id' hsome hcount => ?_) ?_
      (Or.inr ⟨by simp, by simp, rfl⟩)
    · refine Function.update_of_ne (fun href => ?_) _ _
      obtain ⟨rfl, hsome, hcount, hex⟩ := refOf_inj hid' hid hk href
      exact h.alone (hshort _) hid ht hsome hcount (href.symm.trans hex)
    · exact Function.update_of_ne (Ne.symm (h.alone (hshort id) hid ht hsome hcount)) _ _
    · rw [Function.update_self]
      exact ⟨evs ++ [e], hevs', by rw [← hstream]; simp⟩
  · obtain ⟨evs, hevs, hstream⟩ := h.progress k id _ hid ht
    have hpre : evs ++ [e] <+: store.aggregate id := ⟨rest, by rw [← hstream]; simp⟩
    obtain ⟨a', happly', -⟩ := hevs.apply ((hstreams id).of_isPrefix hpre)
    rw [happly] at happly'
    cases happly'

theorem Sound.run (h : Sound d store redis u) (hstreams : ∀ id, History id (store.aggregate id))
    (hshort : ∀ id, (store.aggregate id).length < 2 ^ 31 - 1) {ls : List UpdateLabel}
    (hrun : Transition.run (updateStep d.domain store redis) u ls = some u') :
    Sound d store redis u' :=
  Transition.run_invariant (fun _ _ _ h hstep => h.step hstreams hshort hstep) h hrun

-- ============================================================================
-- Every call comes to an end
-- ============================================================================

/-- What `UpdateAggregates` returns: for every entry of `T-Ids` an object that is the
    replay of its stream, and nothing else. -/
theorem Sound.returned (h : Sound d store redis u) (hstuck : Stuck d.domain store redis u) :
    (∀ a ∈ u.added.map u.objects, a.id ∈ store.ids ∧
      Builds d a.id a (store.aggregate a.id)) ∧
    ∀ id ∈ store.ids, ∃ a ∈ u.added.map u.objects, a.id = id := by
  have hbuilt : ∀ (k : Nat) (id : Id), store.ids[k]? = some id →
      u.tasks[k]? = some .finished ∧
        Builds d id (u.objects (refOf redis k id)) (store.aggregate id) := by
    intro k id hid
    have hlt : k < u.tasks.length := by
      rw [h.tasks]
      exact (List.getElem?_eq_some_iff.mp hid).1
    have ht := List.getElem?_eq_getElem hlt
    rw [finished_of_stuck h.ok h.tasks hstuck ht] at ht
    exact ⟨ht, h.progress k id _ hid ht⟩
  refine ⟨?_, ?_⟩
  · intro a ha
    obtain ⟨r, hr, rfl⟩ := List.mem_map.mp ha
    obtain ⟨k, id, hid, -, rfl⟩ := (h.added r).mp hr
    have hb := (hbuilt k id hid).2
    rw [hb.id_eq]
    exact ⟨List.mem_of_getElem? hid, hb⟩
  · intro id hmem
    obtain ⟨k, hid⟩ := List.mem_iff_getElem?.mp hmem
    obtain ⟨ht, hb⟩ := hbuilt k id hid
    exact ⟨_, List.mem_map_of_mem ((h.added _).mpr ⟨k, id, hid, ht, rfl⟩), hb.id_eq⟩

omit [DecidableEq Id] in
/-- What a task has left to do, at most. -/
def UpdateTask.work : UpdateTask Id P → Nat
  | .waiting => 2 ^ 31 + 1
  | .applying rest => rest.length + 1
  | .finished => 0

def Update.work (u : Update Id S P) : Nat := (u.tasks.map UpdateTask.work).sum

omit [DecidableEq Id] in
theorem work_set {k : Nat} {t t' : UpdateTask Id P} (ht : u.tasks[k]? = some t)
    (hlt : t'.work < t.work) (objects : Ref Id → Aggregate Id S P) (added : List (Ref Id)) :
    Update.work { u with objects, tasks := u.tasks.set k t', added } < u.work := by
  have hsum := List.sum_map_set UpdateTask.work t' ht
  simp only [Update.work]
  omega

theorem Sound.work_step (h : Sound d store redis u)
    (hstreams : ∀ id, History id (store.aggregate id))
    (hshort : ∀ id, (store.aggregate id).length < 2 ^ 31 - 1) {l : UpdateLabel}
    (hstep : updateStep d.domain store redis u l = some u') : u'.work < u.work := by
  have hok := (h.step hstreams hshort hstep).ok
  obtain ⟨-, k, id, hid, ⟨ht, -, -, rfl⟩ | ⟨ht, -, hneg, rfl⟩ | ⟨ht, -, rfl⟩ |
    ⟨e, rest, a, ht, -, happly, rfl⟩ | ⟨e, rest, a, ht, -, happly, rfl⟩⟩ := updateStep_cases hstep
  · cases hok
  · obtain ⟨evs, hevs, hpre⟩ := h.progress k id _ hid ht
    have hread := congrArg List.length (hevs.read hpre (hstreams id) (hshort id)).2
    have hlen := hshort id
    rw [List.length_append] at hread
    refine work_set ht ?_ _ _
    simp only [UpdateTask.work]
    omega
  · exact work_set ht (by simp [UpdateTask.work]) _ _
  · exact work_set ht (by simp [UpdateTask.work]) _ _
  · cases hok

/-- Some schedule brings every task to its end. -/
theorem Sound.completes (h : Sound d store redis u)
    (hstreams : ∀ id, History id (store.aggregate id))
    (hshort : ∀ id, (store.aggregate id).length < 2 ^ 31 - 1) :
    ∃ ls u', Transition.run (updateStep d.domain store redis) u ls = some u' ∧
      Stuck d.domain store redis u' := by
  induction hn : u.work using Nat.strongRecOn generalizing u with
  | ind n ih =>
      by_cases hstuck : Stuck d.domain store redis u
      · exact ⟨[], u, rfl, hstuck⟩
      · obtain ⟨l, hl⟩ := not_forall.mp hstuck
        obtain ⟨u₁, hstep⟩ := Option.ne_none_iff_exists'.mp hl
        have hwork := h.work_step hstreams hshort hstep
        obtain ⟨ls, u', hrun, hstuck'⟩ :=
          ih u₁.work (by omega) (h.step hstreams hshort hstep) rfl
        exact ⟨l :: ls, u', Transition.run_cons_eq_some.mpr ⟨u₁, hstep, hrun⟩, hstuck'⟩

-- ============================================================================
-- Two tasks that read before either applies
-- ============================================================================

/-- A task applies events while the others wait. -/
theorem run_proceed {d : Domain Id S P} {k : Nat} {id : Id}
    {evs es rest : List (AggregateEvent Id P)} (hok : u.failed = false)
    (hid : store.ids[k]? = some id) (ht : u.tasks[k]? = some (.applying (es ++ rest)))
    (hevs : Builds d.total id (u.objects (refOf redis k id)) evs)
    (hhist : History id (evs ++ es)) (haccepts : d.Accepts d.init (evs ++ es)) :
    ∃ u', Transition.run (updateStep d store redis) u
        (List.replicate es.length (.proceed k)) = some u' ∧ u'.failed = false ∧
      u'.tasks = u.tasks.set k (.applying rest) ∧
      (∀ r, r ≠ refOf redis k id → u'.objects r = u.objects r) ∧
      Builds d.total id (u'.objects (refOf redis k id)) (evs ++ es) := by
  induction es generalizing u evs with
  | nil =>
      refine ⟨u, rfl, hok, ?_, fun _ _ => rfl, by simpa using hevs⟩
      obtain ⟨hlt, hget⟩ := List.getElem?_eq_some_iff.mp ht
      rw [List.nil_append] at hget
      rw [← hget, List.set_getElem_self]
  | cons e es ih =>
      have hpre : evs ++ [e] <+: evs ++ e :: es := ⟨es, by simp⟩
      obtain ⟨a, happly, hevs'⟩ :=
        hevs.apply_accepted (hhist.of_isPrefix hpre) (haccepts.of_isPrefix hpre)
      have hlt := (List.getElem?_eq_some_iff.mp ht).1
      have hstep : updateStep d store redis u (.proceed k) = some { u with
          objects := Function.update u.objects (refOf redis k id) a
          tasks := u.tasks.set k (.applying (es ++ rest)) } := by
        simp only [updateStep, hok, ht, hid, List.cons_append, happly]
      have hobject : Builds d.total id (Function.update u.objects (refOf redis k id) a
          (refOf redis k id)) (evs ++ [e]) := by
        rw [Function.update_self]
        exact hevs'
      obtain ⟨u', hrun, hok', htasks, hframe, hevs''⟩ := ih (u := { u with
          objects := Function.update u.objects (refOf redis k id) a
          tasks := u.tasks.set k (.applying (es ++ rest)) }) hok
        (List.getElem?_set_self hlt) hobject (by simpa using hhist) (by simpa using haccepts)
      refine ⟨u', Transition.run_cons_eq_some.mpr ⟨_, hstep, hrun⟩, hok', ?_, fun r hr => ?_,
        by simpa using hevs''⟩
      · rw [htasks, List.set_set]
      · rw [hframe r hr]
        exact Function.update_of_ne hr _ _

/-- A task begins: it reads what its object has not seen. -/
theorem step_start {d : Domain Id S P} {k : Nat} {id : Id}
    {evs tail : List (AggregateEvent Id P)} (hok : u.failed = false)
    (hid : store.ids[k]? = some id) (ht : u.tasks[k]? = some .waiting)
    (hevs : Builds d.total id (u.objects (refOf redis k id)) evs)
    (hstream : evs ++ tail = store.aggregate id) (hhist : History id (store.aggregate id))
    (hshort : (store.aggregate id).length < 2 ^ 31 - 1) :
    updateStep d store redis u (.start k) =
      some { u with tasks := u.tasks.set k (.applying tail) } := by
  obtain ⟨hneg, hread⟩ := hevs.read ⟨tail, hstream⟩ hhist hshort
  have htail := List.append_cancel_left (hread.trans hstream.symm)
  simp only [updateStep, hok, ht, hid, if_neg hneg, htail]

/-- A task throws when its object has moved past the event it is about to apply. -/
theorem step_throws {k : Nat} {id : Id} {evs : List (AggregateEvent Id P)}
    {e : AggregateEvent Id P} {rest : List (AggregateEvent Id P)}
    (hok : u.failed = false) (hid : store.ids[k]? = some id)
    (ht : u.tasks[k]? = some (.applying (e :: rest)))
    (hevs : Builds d id (u.objects (refOf redis k id)) evs) (hown : e.aggregateId = id)
    (hpast : e.version ≠ Int32.ofNat (evs.length + 1)) :
    ∃ u', updateStep d.domain store redis u (.proceed k) = some u' ∧ u'.failed = true := by
  have hthrew : (u.objects (refOf redis k id)).applyEvent d.domain e =
      .threw (u.objects (refOf redis k id)) := by
    apply Aggregate.applyEvent_of_version_ne (hevs.id_eq.trans hown.symm)
    rw [hevs.version]
    intro heq
    exact hpast (by rw [← heq, Int32.ofNat_add]; rfl)
  refine ⟨{ u with
    objects := Function.update u.objects (refOf redis k id) (u.objects (refOf redis k id))
    failed := true }, ?_, rfl⟩
  simp only [updateStep, hok, ht, hid, hthrew]

/-- Two tasks that wait for one object which is behind its stream: both read the same
    events, the first applies them, and the second throws. -/
theorem run_race {i j : Nat} {id : Id} {evs : List (AggregateEvent Id P)}
    {e : AggregateEvent Id P} {rest : List (AggregateEvent Id P)} (hok : u.failed = false)
    (hij : i < j) (hi : store.ids[i]? = some id) (hj : store.ids[j]? = some id)
    (hwi : u.tasks[i]? = some .waiting) (hwj : u.tasks[j]? = some .waiting)
    (href : refOf redis j id = refOf redis i id)
    (hevs : Builds d id (u.objects (refOf redis i id)) evs)
    (hstream : evs ++ e :: rest = store.aggregate id) (hhist : History id (store.aggregate id))
    (hshort : (store.aggregate id).length < 2 ^ 31 - 1) :
    ∃ ls u', Transition.run (updateStep d.domain store redis) u ls = some u' ∧
      u'.failed = true := by
  have hlti := (List.getElem?_eq_some_iff.mp hwi).1
  have hltj := (List.getElem?_eq_some_iff.mp hwj).1
  -- both tasks read
  have hstart₁ := step_start (d := d.domain) hok hi hwi hevs hstream hhist hshort
  let u₁ : Update Id S P := { u with tasks := u.tasks.set i (.applying (e :: rest)) }
  have hj₁ : u₁.tasks[j]? = some .waiting := by
    show (u.tasks.set i _)[j]? = _
    rw [List.getElem?_set_ne (Nat.ne_of_lt hij)]
    exact hwj
  have hevs₁ : Builds d id (u₁.objects (refOf redis j id)) evs := by
    rw [href]
    exact hevs
  have hstart₂ := step_start (d := d.domain) (u := u₁) hok hj hj₁ hevs₁ hstream hhist hshort
  let u₂ : Update Id S P := { u₁ with tasks := u₁.tasks.set j (.applying (e :: rest)) }
  -- the first applies all of it
  have hi₂ : u₂.tasks[i]? = some (.applying ((e :: rest) ++ [])) := by
    show ((u.tasks.set i _).set j _)[i]? = _
    rw [List.getElem?_set_ne (Nat.ne_of_gt hij), List.getElem?_set_self hlti, List.append_nil]
  have hhist₂ : History id (evs ++ e :: rest) := by
    rw [hstream]
    exact hhist
  obtain ⟨u₃, hrun, hok₃, htasks₃, -, hevs₃⟩ :=
    run_proceed (d := d.domain) (u := u₂) hok hi hi₂ hevs hhist₂ (d.accepts _ _)
  -- the second is at an event that its object has had
  have hj₃ : u₃.tasks[j]? = some (.applying (e :: rest)) := by
    rw [htasks₃]
    show (((u.tasks.set i _).set j _).set i _)[j]? = _
    rw [List.getElem?_set_ne (Nat.ne_of_lt hij), List.getElem?_set_self]
    show j < (u.tasks.set i _).length
    rw [List.length_set]
    exact hltj
  have hpast : e.version ≠ Int32.ofNat ((evs ++ e :: rest).length + 1) := by
    rw [hhist₂.version_append_cons, hstream]
    intro heq
    have heq := congrArg Int32.toInt heq
    rw [← hstream, List.length_append, List.length_cons] at hshort heq
    rw [Int32.toInt_ofNat_of_lt (by omega), Int32.toInt_ofNat_of_lt (by omega)] at heq
    omega
  have hevs₃' : Builds d id (u₃.objects (refOf redis j id)) (evs ++ e :: rest) := by
    rw [href]
    exact hevs₃
  obtain ⟨u₄, hthrow, hfailed⟩ := step_throws hok₃ hj hj₃ hevs₃' (hhist₂.own e (by simp)) hpast
  refine ⟨.start i :: .start j :: (List.replicate (e :: rest).length (.proceed i) ++
    [.proceed j]), u₄, ?_, hfailed⟩
  exact Transition.run_cons_eq_some.mpr ⟨u₁, hstart₁,
    Transition.run_cons_eq_some.mpr ⟨u₂, hstart₂,
      Transition.run_trans hrun (Transition.run_single hthrow)⟩⟩

/-- **The shared object.** When an id is listed twice and its snapshot is behind its
    stream, two tasks race for it. -/
theorem exists_failure (hsnap : Snapshots d store redis)
    (hstreams : ∀ id, History id (store.aggregate id))
    (hshort : ∀ id, (store.aggregate id).length < 2 ^ 31 - 1) (hcaught : ¬ Caught store redis)
    (shardKey : Nat → Int32) :
    ∃ ls u, Transition.run (updateStep d.domain store redis)
        (Update.start d.domain store redis shardKey) ls = some u ∧ u.failed = true := by
  simp only [Caught, not_forall] at hcaught
  obtain ⟨id, v, hv, hcount, hbehind⟩ := hcaught
  obtain ⟨-, sk, n, rfl⟩ := hsnap id v hv
  obtain ⟨i, j, hij, hi, hj⟩ := List.one_lt_count_iff.mp hcount
  have href : ∀ k, refOf redis k id = .existing id := fun k => by simp [refOf, hv]
  have hwaiting : ∀ k : Nat, store.ids[k]? = some id →
      (Update.start d.domain store redis shardKey).tasks[k]? = some .waiting := by
    intro k hk
    show (store.ids.map _)[k]? = _
    rw [List.getElem?_map, hk]
    rfl
  -- what the snapshot has seen, and the events after it
  have hevs : Builds d id ((Update.start d.domain store redis shardKey).objects
      (refOf redis i id)) ((store.aggregate id).take n) := by
    rw [href]
    show Builds d id (Aggregate.ofSnapshot id ((redis id).getD _)) _
    rw [hv, Option.getD_some]
    exact builds_ofSnapshot d id sk _
  have hstream : (store.aggregate id).take n ++ (store.aggregate id).drop n =
      store.aggregate id := List.take_append_drop _ _
  cases htail : (store.aggregate id).drop n with
  | nil =>
      rw [htail, List.append_nil] at hstream
      exact absurd (by rw [hstream]; rfl) hbehind
  | cons e rest =>
      rw [htail] at hstream
      exact run_race rfl hij hi hj (hwaiting i hi) (hwaiting j hj) ((href j).trans (href i).symm)
        hevs hstream (hstreams id) (hshort id)

end Sound

end Milde.AggregateCache
