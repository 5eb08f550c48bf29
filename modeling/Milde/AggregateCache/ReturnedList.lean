/-
  Milde.AggregateCache.ReturnedList

  The list that `EventStore.UpdateAggregates` returns.

  The lambda that `Parallel.ForEach` runs is asynchronous, so the loop is over when every
  task has come to its first incomplete await, and `RedisAggregateCache.Initialize` reads
  the list while tasks may still be waiting for the store.  What it finds depends on the
  tasks that have ended by then (`returnsEverything_iff`).

  The invariant (`Progressing`) holds of every order of the tasks, also where several of
  them share an object: an object has taken in a beginning of the events that it had not
  seen, and a task that has applied more of them than its object has does not exist.  A
  task that is behind its object throws at its next event.
-/
import Milde.AggregateCache.Rehydration

namespace Milde.AggregateCache

open Milde.EventSourcing Milde.EventStore

variable {Id S P : Type}

def Ref.aggregateId : Ref Id → Id
  | .existing id => id
  | .own _ id => id

def UpdateTask.isFinished : UpdateTask Id P → Bool
  | .finished => true
  | _ => false

variable [DecidableEq Id]

/-- How many of the tasks for `id` have ended. -/
def Update.ended (u : Update Id S P) (ids : List Id) (id : Id) : Nat :=
  (ids.zip u.tasks).countP fun p => decide (p.1 = id) && p.2.isFinished

/-- The argument of `UpdateAggregates`: aggregates with distinct ids. -/
structure Existing (Id S P : Type) where
  aggregates : List (Aggregate Id S P)
  distinct : (aggregates.map Aggregate.id).Nodup

/-- `existingAggregates.SingleOrDefault(a => a.Id == aggregateId)`. -/
def Existing.single (existing : Existing Id S P) (id : Id) : Option (Aggregate Id S P) :=
  existing.aggregates.find? fun a => decide (a.id = id)

/-- What the tasks see of the existing aggregates: whether there is one. -/
def Existing.hash (existing : Existing Id S P) : RedisHash Id S :=
  fun id => (existing.single id).map Aggregate.view

/-- The objects of the tasks: the existing ones and new ones. -/
def Existing.objects (d : Domain Id S P) (existing : Existing Id S P) (shardKey : Nat → Int32) :
    Ref Id → Aggregate Id S P
  | .existing id => (existing.single id).getD (Aggregate.new d id 0)
  | .own task id => Aggregate.new d id (shardKey task)

/-- A call of `UpdateAggregates` with any existing aggregates, before its first task. -/
def Update.startWith (d : Domain Id S P) (store : Store Id P) (existing : Existing Id S P)
    (shardKey : Nat → Int32) : Update Id S P where
  objects := existing.objects d shardKey
  tasks := store.ids.map fun _ => .waiting
  added := []
  failed := false

/-- The list `aggregates`, with its objects as they are now. -/
def Update.aggregates (u : Update Id S P) : List (Aggregate Id S P) := u.added.map u.objects

/-- The object is the full replay of the stream. -/
def FullReplay (d : Domain Id S P) (stream : List (AggregateEvent Id P)) (a : Aggregate Id S P) :
    Prop :=
  ∃ shardKey r, (Aggregate.new d a.id shardKey).applyEvents d stream = .returned r ∧
    a.view = r.view

/-- The list holds exactly one aggregate for each id of `T-Ids`, at its full replay. -/
def ReturnsEverything (d : Domain Id S P) (store : Store Id P) (u : Update Id S P) : Prop :=
  ∀ id ∈ store.ids, ∃ a, u.aggregates.filter (fun b => decide (b.id = id)) = [a] ∧
    FullReplay d (store.aggregate id) a

/-- Brought forward by the events that it has not seen, the aggregate is the full replay. -/
def CatchesUp (d : Domain Id S P) (stream : List (AggregateEvent Id P)) (a : Aggregate Id S P) :
    Prop :=
  ∃ a', a.applyEvents d (stream.drop a.version.toInt.toNat) = .returned a' ∧
    FullReplay d stream a'

-- ============================================================================
-- The invariant
-- ============================================================================

/-- The object `a` is `a₀` after `n` or more of the events that `a₀` had not seen. -/
def Reached (d : Domain Id S P) (stream : List (AggregateEvent Id P))
    (a₀ a : Aggregate Id S P) (n : Nat) : Prop :=
  ∃ seen todo, seen ++ todo = stream.drop a₀.version.toInt.toNat ∧
    a₀.applyEvents d seen = .returned a ∧ n ≤ seen.length ∧
    a.version.toInt = a₀.version.toInt + seen.length ∧ (seen = [] ∨ 0 ≤ a₀.version.toInt)

/-- How much of the unseen events a task has applied, or found applied. -/
def UpdateTask.Behind (d : Domain Id S P) (stream : List (AggregateEvent Id P))
    (a₀ a : Aggregate Id S P) : UpdateTask Id P → Prop
  | .waiting => Reached d stream a₀ a 0
  | .applying rest => 0 ≤ a₀.version.toInt ∧ ∃ before,
      before ++ rest = stream.drop a₀.version.toInt.toNat ∧ Reached d stream a₀ a before.length
  | .finished => Reached d stream a₀ a (stream.drop a₀.version.toInt.toNat).length

/-- What holds of the tasks in every order, given the objects they began with. -/
structure Progressing (d : Domain Id S P) (store : Store Id P) (redis : RedisHash Id S)
    (objects : Ref Id → Aggregate Id S P) (u : Update Id S P) : Prop where
  ok : u.failed = false
  tasks : u.tasks.length = store.ids.length
  ids : ∀ r, (u.objects r).id = r.aggregateId
  progress : ∀ (k : Nat) id t, store.ids[k]? = some id → u.tasks[k]? = some t →
    t.Behind d (store.aggregate id) (objects (refOf redis k id)) (u.objects (refOf redis k id))
  added : ∀ r ∈ u.added, ∃ (k : Nat) (id : Id), store.ids[k]? = some id ∧
    u.tasks[k]? = some .finished ∧ r = refOf redis k id
  ended : ∀ id, u.added.countP (fun r => decide (r.aggregateId = id)) = u.ended store.ids id

section Reached

variable {d : Domain Id S P} {stream : List (AggregateEvent Id P)} {a₀ a a' : Aggregate Id S P}
  {id : Id} {n : Nat}

theorem Reached.mono {m : Nat} (h : Reached d stream a₀ a n) (hm : m ≤ n) :
    Reached d stream a₀ a m := by
  obtain ⟨seen, todo, htail, happly, hn, hrest⟩ := h
  exact ⟨seen, todo, htail, happly, hm.trans hn, hrest⟩

/-- All of the unseen events. -/
theorem Reached.all
    (h : Reached d stream a₀ a (stream.drop a₀.version.toInt.toNat).length) :
    a₀.applyEvents d (stream.drop a₀.version.toInt.toNat) = .returned a := by
  obtain ⟨seen, todo, htail, happly, hn, -⟩ := h
  have hlength := congrArg List.length htail
  rw [List.length_append] at hlength
  have htodo : todo = [] := List.eq_nil_of_length_eq_zero (by omega)
  rw [← htail, htodo, List.append_nil]
  exact happly

/-- What a task reads when it begins: the events that its object has not seen by then. -/
theorem Reached.read (h : Reached d stream a₀ a n) (hhist : History id stream)
    (hshort : stream.length < 2 ^ 31 - 1) (hneg : ¬ a.version < 0) :
    0 ≤ a₀.version.toInt ∧ ∃ before,
      before ++ orderByVersion (getEvents stream a.version.toInt.toNat) =
        stream.drop a₀.version.toInt.toNat ∧ Reached d stream a₀ a before.length := by
  obtain ⟨seen, todo, htail, happly, -, hversion, hfrom⟩ := h
  rw [Int32.lt_iff_toInt_lt, Int32.toInt_zero, Int.not_lt] at hneg
  have hstart : 0 ≤ a₀.version.toInt := by
    rcases hfrom with rfl | hfrom
    · simp only [List.length_nil] at hversion
      omega
    · exact hfrom
  have hdrop : stream.drop a.version.toInt.toNat = todo := by
    have hsum : a.version.toInt.toNat = a₀.version.toInt.toNat + seen.length := by omega
    rw [hsum, ← List.drop_drop, ← htail, List.drop_left]
  have horder : orderByVersion todo = todo := by
    have hsplit := List.take_append_drop a.version.toInt.toNat stream
    rw [hdrop] at hsplit
    have hlength := congrArg List.length hsplit
    rw [List.length_append] at hlength
    have hnum := hhist.numbered
    rw [← hsplit] at hnum
    exact orderByVersion_of_numbered (Numbered.append_iff.mp hnum).2 (by omega)
  refine ⟨hstart, seen, ?_, seen, todo, htail, happly, Nat.le_refl _, hversion, hfrom⟩
  rw [getEvents_eq_drop, hdrop, horder, htail]

/-- A task whose event is taken in was level with its object, and stays so. -/
theorem Reached.apply {e : AggregateEvent Id P} {before rest : List (AggregateEvent Id P)}
    (h : Reached d stream a₀ a before.length) (hhist : History id stream)
    (hshort : stream.length < 2 ^ 31 - 1) (hid : a.id = id)
    (hstart : 0 ≤ a₀.version.toInt)
    (htask : before ++ e :: rest = stream.drop a₀.version.toInt.toNat)
    (happly : a.applyEvent d e = .returned a') :
    a'.id = a.id ∧ Reached d stream a₀ a' (before ++ [e]).length ∧
      ∀ m, Reached d stream a₀ a m → Reached d stream a₀ a' m := by
  obtain ⟨seen, todo, htail, hseen, hn, hversion, hfrom⟩ := h
  have hstream : stream.take a₀.version.toInt.toNat ++ before ++ e :: rest = stream := by
    rw [List.append_assoc, htask, List.take_append_drop]
  have hown : e.aggregateId = a.id := by
    rw [hid]
    exact hhist.own e (by rw [← hstream]; simp)
  obtain ⟨hv, -, ha_id, ha_version, -⟩ := Aggregate.applyEvent_eq_returned hown happly
  have hlength := congrArg List.length hstream
  have htaskLength := congrArg List.length htask
  simp only [List.length_append, List.length_cons, List.length_drop, List.length_take]
    at hlength htaskLength
  -- the version of the event tells where it stands
  have hplace : e.version.toInt = a₀.version.toInt + before.length + 1 := by
    have hnum := hhist
    rw [← hstream] at hnum
    rw [hnum.version_append_cons, List.length_append, List.length_take,
      Int32.toInt_ofNat_of_lt (by omega)]
    omega
  have hseenLength := congrArg List.length htail
  simp only [List.length_append, List.length_drop] at hseenLength
  have hnext : (a.version + 1).toInt = a.version.toInt + 1 := by
    rw [Int32.toInt_add, Int32.toInt_one]
    exact Int.bmod_eq_of_le (by omega) (by omega)
  have hlevel : seen.length = before.length := by
    rw [hv, hnext] at hplace
    omega
  -- so the event is the next one that the object has not seen
  obtain ⟨rfl, rfl⟩ : seen = before ∧ todo = e :: rest :=
    List.append_inj (htail.trans htask.symm) hlevel
  have happly' : a₀.applyEvents d (seen ++ [e]) = .returned a' := by
    rw [Aggregate.applyEvents_append hseen, Aggregate.applyEvents_cons_of_returned happly]
    rfl
  have hreached : Reached d stream a₀ a' (seen ++ [e]).length := by
    refine ⟨seen ++ [e], rest, by rw [← htail]; simp, happly', Nat.le_refl _, ?_, Or.inr hstart⟩
    rw [ha_version, hv, hnext, hversion]
    simp only [List.length_append, List.length_singleton]
    push_cast
    omega
  refine ⟨ha_id, hreached, fun m hm => ?_⟩
  obtain ⟨seen', todo', htail', -, hm, hversion', -⟩ := hm
  exact hreached.mono (by rw [List.length_append]; omega)

end Reached

-- ============================================================================
-- Every order of the tasks
-- ============================================================================

section Tasks

variable {d : Domain Id S P} {store : Store Id P} {redis : RedisHash Id S}
  {objects : Ref Id → Aggregate Id S P} {u u' : Update Id S P}

omit [DecidableEq Id] in
@[simp] theorem refOf_aggregateId (redis : RedisHash Id S) (k : Nat) (id : Id) :
    (refOf redis k id).aggregateId = id := by
  unfold refOf
  split <;> rfl

/-- Before any task has run. -/
theorem progressing_start (hids : ∀ r, (objects r).id = r.aggregateId) :
    Progressing d store redis objects ⟨objects, store.ids.map fun _ => .waiting, [], false⟩ where
  ok := rfl
  tasks := List.length_map ..
  ids := hids
  progress := by
    intro k id t hid ht
    obtain rfl : t = .waiting := by
      simp only [List.getElem?_map, hid, Option.map_some, Option.some.injEq] at ht
      exact ht.symm
    exact ⟨[], _, rfl, rfl, Nat.zero_le _, by simp, Or.inl rfl⟩
  added _ hr := absurd hr List.not_mem_nil
  ended := by
    intro id
    rw [List.countP_nil, Update.ended, eq_comm, List.countP_eq_zero]
    intro p hp
    obtain ⟨-, ht⟩ := List.of_mem_zip hp
    obtain ⟨-, -, heq⟩ := List.mem_map.mp ht
    simp [← heq, UpdateTask.isFinished]

/-- A task that changes counts anew. -/
theorem ended_set {k : Nat} {id : Id} {t : UpdateTask Id P} (hid : store.ids[k]? = some id)
    (ht : u.tasks[k]? = some t) (hopen : t.isFinished = false) (t' : UpdateTask Id P)
    (objects : Ref Id → Aggregate Id S P) (added : List (Ref Id)) (id' : Id) :
    Update.ended { u with objects, tasks := u.tasks.set k t', added } store.ids id' =
      u.ended store.ids id' + if id = id' ∧ t'.isFinished then 1 else 0 := by
  have hzip : (store.ids.zip u.tasks)[k]? = some (id, t) := by
    rw [List.getElem?_zip_eq_some]
    exact ⟨hid, ht⟩
  have hcount := List.countP_set_add
    (p := fun p : Id × UpdateTask Id P => decide (p.1 = id') && p.2.isFinished) (id, t') hzip
  simp only [hopen, Bool.and_false, Bool.false_eq_true, if_false, Nat.add_zero, Bool.and_eq_true,
    decide_eq_true_eq] at hcount
  rw [Update.ended, List.zip_set hid, hcount]
  rfl

/-- The tasks go on as they are, but for one, while the objects move on. -/
theorem Progressing.setTask (h : Progressing d store redis objects u) {k : Nat} {id : Id}
    {t t' : UpdateTask Id P} (hid : store.ids[k]? = some id) (ht : u.tasks[k]? = some t)
    (hopen : t.isFinished = false) (hopen' : t'.isFinished = false)
    {objects' : Ref Id → Aggregate Id S P} (hids : ∀ r, (objects' r).id = r.aggregateId)
    (hmoved : ∀ (k' : Nat) id' n, store.ids[k']? = some id' →
      Reached d (store.aggregate id') (objects (refOf redis k' id'))
        (u.objects (refOf redis k' id')) n →
      Reached d (store.aggregate id') (objects (refOf redis k' id'))
        (objects' (refOf redis k' id')) n)
    (hnew : t'.Behind d (store.aggregate id) (objects (refOf redis k id))
      (objects' (refOf redis k id))) :
    Progressing d store redis objects
      { u with objects := objects', tasks := u.tasks.set k t' } where
  ok := h.ok
  tasks := by simpa using h.tasks
  ids := hids
  progress := by
    intro k' id' t'' hid' ht''
    rcases List.getElem?_set_cases ht'' with ⟨rfl, rfl⟩ | ⟨-, ht''⟩
    · obtain rfl : id = id' := Option.some.inj (hid.symm.trans hid')
      exact hnew
    · have hold := h.progress k' id' t'' hid' ht''
      cases t'' with
      | waiting => exact hmoved k' id' _ hid' hold
      | applying rest =>
          obtain ⟨hstart, before, hbefore, hreached⟩ := hold
          exact ⟨hstart, before, hbefore, hmoved k' id' _ hid' hreached⟩
      | finished => exact hmoved k' id' _ hid' hold
  added := by
    intro r hr
    obtain ⟨k', id', hid', ht', rfl⟩ := h.added r hr
    refine ⟨k', id', hid', ?_, rfl⟩
    by_cases hk : k' = k
    · subst hk
      obtain rfl : t = .finished := Option.some.inj (ht.symm.trans ht')
      cases hopen
    · rw [List.getElem?_set_ne (Ne.symm hk)]
      exact ht'
  ended := by
    intro id'
    have hset := ended_set hid ht hopen t' objects' u.added id'
    rw [hset, hopen']
    simpa using h.ended id'

/-- A step of a task after which no exception has escaped. -/
theorem Progressing.step (h : Progressing d store redis objects u)
    (hstreams : ∀ id, History id (store.aggregate id))
    (hshort : ∀ id, (store.aggregate id).length < 2 ^ 31 - 1) {l : UpdateLabel}
    (hstep : updateStep d store redis u l = some u') (hok : u'.failed = false) :
    Progressing d store redis objects u' := by
  obtain ⟨-, k, id, hid, ⟨ht, -, -, rfl⟩ | ⟨ht, -, hneg, rfl⟩ | ⟨ht, -, rfl⟩ |
    ⟨e, rest, a, ht, -, happly, rfl⟩ | ⟨e, rest, a, ht, -, happly, rfl⟩⟩ := updateStep_cases hstep
  · cases hok
  · have hreached : Reached d _ _ _ _ := h.progress k id _ hid ht
    exact h.setTask hid ht rfl rfl h.ids (fun _ _ _ _ hn => hn)
      (hreached.read (hstreams id) (hshort id) hneg)
  · -- the task adds its object and is at its end
    have hlt := (List.getElem?_eq_some_iff.mp ht).1
    obtain ⟨-, before, hbefore, hreached⟩ := h.progress k id _ hid ht
    refine ⟨h.ok, by simpa using h.tasks, h.ids, ?_, ?_, ?_⟩
    · intro k' id' t hid' ht'
      rcases List.getElem?_set_cases ht' with ⟨rfl, rfl⟩ | ⟨-, ht'⟩
      · obtain rfl : id = id' := Option.some.inj (hid.symm.trans hid')
        rw [List.append_nil] at hbefore
        show Reached d _ _ _ (List.length _)
        rw [← hbefore]
        exact hreached
      · exact h.progress k' id' t hid' ht'
    · intro r hr
      rcases List.mem_append.mp hr with hr | hr
      · obtain ⟨k', id', hid', ht', rfl⟩ := h.added r hr
        refine ⟨k', id', hid', ?_, rfl⟩
        by_cases hk : k' = k
        · subst hk
          exact List.getElem?_set_self hlt
        · rw [List.getElem?_set_ne (Ne.symm hk)]
          exact ht'
      · exact ⟨k, id, hid, List.getElem?_set_self hlt, List.mem_singleton.mp hr⟩
    · intro id'
      have hset := ended_set hid ht rfl .finished u.objects
        (u.added ++ [refOf redis k id]) id'
      rw [hset, List.countP_append, h.ended]
      simp [UpdateTask.isFinished, List.countP_cons]
  · obtain ⟨hstart, before, hbefore, hreached⟩ := h.progress k id _ hid ht
    have hobject : (u.objects (refOf redis k id)).id = id := by
      rw [h.ids, refOf_aggregateId]
    obtain ⟨ha_id, hnew, hmono⟩ :=
      hreached.apply (hstreams id) (hshort id) hobject hstart hbefore happly
    refine h.setTask hid ht rfl rfl ?_ ?_ ⟨hstart, before ++ [e], by simpa using hbefore, ?_⟩
    · intro r
      by_cases hr : r = refOf redis k id
      · rw [hr, Function.update_self, ha_id, hobject, refOf_aggregateId]
      · rw [Function.update_of_ne hr, h.ids]
    · intro k' id' n hid' hn
      by_cases hr : refOf redis k' id' = refOf redis k id
      · -- the task shares the object
        obtain rfl : id' = id := by simpa using congrArg Ref.aggregateId hr
        rw [hr] at hn ⊢
        rw [Function.update_self]
        exact hmono n hn
      · rw [Function.update_of_ne hr]
        exact hn
    · rw [Function.update_self]
      exact hnew
  · cases hok

/-- What holds of every order of the tasks from which no exception has escaped. -/
theorem Progressing.run (h : Progressing d store redis objects u)
    (hstreams : ∀ id, History id (store.aggregate id))
    (hshort : ∀ id, (store.aggregate id).length < 2 ^ 31 - 1) {ls : List UpdateLabel}
    (hrun : Transition.run (updateStep d store redis) u ls = some u') (hok : u'.failed = false) :
    Progressing d store redis objects u' := by
  refine Transition.run_invariant (I := fun u => u.failed = false → Progressing d store redis
    objects u) ?_ (fun _ => h) hrun hok
  intro u l u' hu hstep hok'
  exact (hu (updateStep_cases hstep).1).step hstreams hshort hstep hok'

/-- The object of a task that has ended has taken in all it had not seen. -/
theorem Progressing.finished (h : Progressing d store redis objects u) {k : Nat} {id : Id}
    (hid : store.ids[k]? = some id) (ht : u.tasks[k]? = some .finished) :
    (objects (refOf redis k id)).applyEvents d ((store.aggregate id).drop
        (objects (refOf redis k id)).version.toInt.toNat) =
      .returned (u.objects (refOf redis k id)) :=
  Reached.all (h.progress k id _ hid ht)

/-- The list has as many aggregates of an id as tasks for the id have ended. -/
theorem Progressing.count (h : Progressing d store redis objects u) (id : Id) :
    (u.aggregates.filter fun b => decide (b.id = id)).length = u.ended store.ids id := by
  rw [← h.ended, ← List.countP_eq_length_filter, Update.aggregates, List.countP_map]
  apply List.countP_congr
  intro r _
  simp only [Function.comp_apply, h.ids]

/-- An aggregate in the list is what a task that has ended made of its object. -/
theorem Progressing.mem_aggregates (h : Progressing d store redis objects u)
    {a : Aggregate Id S P} (ha : a ∈ u.aggregates) :
    ∃ k : Nat, store.ids[k]? = some a.id ∧
      (objects (refOf redis k a.id)).applyEvents d ((store.aggregate a.id).drop
        (objects (refOf redis k a.id)).version.toInt.toNat) = .returned a := by
  obtain ⟨r, hr, rfl⟩ := List.mem_map.mp ha
  obtain ⟨k, id, hid, ht, rfl⟩ := h.added r hr
  have heq : (u.objects (refOf redis k id)).id = id := by
    rw [h.ids, refOf_aggregateId]
  rw [heq]
  exact ⟨k, hid, h.finished hid ht⟩

end Tasks

-- ============================================================================
-- What Initialize finds
-- ============================================================================

section Returned

variable {d : Domain Id S P} {store : Store Id P} {existing : Existing Id S P}
  {shardKey : Nat → Int32} {u : Update Id S P}

theorem Existing.objects_id (existing : Existing Id S P) (shardKey : Nat → Int32) (r : Ref Id) :
    (existing.objects d shardKey r).id = r.aggregateId := by
  cases r with
  | own k id => rfl
  | existing id =>
      show ((existing.single id).getD _).id = id
      cases hsingle : existing.single id with
      | none => rfl
      | some a => simpa using List.find?_some hsingle

/-- The object of a task for `id`: the existing one, or a new one. -/
theorem Existing.objects_refOf (existing : Existing Id S P) (shardKey : Nat → Int32) (k : Nat)
    (id : Id) :
    (∃ a, existing.single id = some a ∧
      existing.objects d shardKey (refOf existing.hash k id) = a) ∨
    (existing.single id = none ∧ existing.objects d shardKey (refOf existing.hash k id) =
      Aggregate.new d id (shardKey k)) := by
  cases hsingle : existing.single id with
  | none =>
      right
      have hnone : (existing.hash id).isSome = false := by simp [Existing.hash, hsingle]
      refine ⟨rfl, ?_⟩
      rw [refOf, hnone]
      rfl
  | some a =>
      left
      have hsome : (existing.hash id).isSome = true := by simp [Existing.hash, hsingle]
      refine ⟨a, rfl, ?_⟩
      rw [refOf, if_pos hsome]
      show (existing.single id).getD _ = a
      rw [hsingle]
      rfl

theorem mem_of_filter_eq {aggregates : List (Aggregate Id S P)} {id : Id}
    {a : Aggregate Id S P} (h : aggregates.filter (fun b => decide (b.id = id)) = [a]) :
    a ∈ aggregates ∧ a.id = id := by
  have ha : a ∈ aggregates.filter fun b => decide (b.id = id) := by
    rw [h]
    exact List.mem_singleton_self a
  obtain ⟨hmem, heq⟩ := List.mem_filter.mp ha
  exact ⟨hmem, of_decide_eq_true heq⟩

/-- **What `UpdateAggregates` returns** is complete at the moment it is read iff by then
    exactly one task of every listed id has ended, given that the existing aggregates are
    earlier states of their streams. -/
theorem returnsEverything_iff (hstreams : ∀ id, History id (store.aggregate id))
    (hshort : ∀ id, (store.aggregate id).length < 2 ^ 31 - 1) {ls : List UpdateLabel}
    (hrun : Transition.run (updateStep d store existing.hash)
      (Update.startWith d store existing shardKey) ls = some u) (hok : u.failed = false) :
    ReturnsEverything d store u ↔
      ∀ id ∈ store.ids, u.ended store.ids id = 1 ∧
        ∀ a, existing.single id = some a → CatchesUp d (store.aggregate id) a := by
  have h : Progressing d store existing.hash (existing.objects d shardKey) u :=
    (progressing_start (existing.objects_id shardKey)).run hstreams hshort hrun hok
  refine ⟨fun hall id hid => ?_, fun hall id hid => ?_⟩
  · obtain ⟨a, hfilter, hreplay⟩ := hall id hid
    refine ⟨by rw [← h.count, hfilter, List.length_singleton], fun a₀ ha₀ => ?_⟩
    obtain ⟨hmem, rfl⟩ := mem_of_filter_eq hfilter
    obtain ⟨k, hk, hdone⟩ := h.mem_aggregates hmem
    rcases existing.objects_refOf (d := d) shardKey k a.id with
      ⟨a₁, ha₁, heq₁⟩ | ⟨hnone, -⟩
    · obtain rfl : a₀ = a₁ := Option.some.inj (ha₀.symm.trans ha₁)
      rw [heq₁] at hdone
      exact ⟨a, hdone, hreplay⟩
    · rw [hnone] at ha₀
      cases ha₀
  · obtain ⟨hended, hcatch⟩ := hall id hid
    rw [← h.count] at hended
    obtain ⟨a, hfilter⟩ := List.length_eq_one_iff.mp hended
    refine ⟨a, hfilter, ?_⟩
    obtain ⟨hmem, rfl⟩ := mem_of_filter_eq hfilter
    obtain ⟨k, hk, hdone⟩ := h.mem_aggregates hmem
    rcases existing.objects_refOf (d := d) shardKey k a.id with
      ⟨a₀, ha₀, heq₀⟩ | ⟨-, hnew⟩
    · rw [heq₀] at hdone
      obtain ⟨a', hdone', hreplay⟩ := hcatch a₀ ha₀
      obtain rfl : a' = a := Outcome.returned.inj (hdone'.symm.trans hdone)
      exact hreplay
    · rw [hnew] at hdone
      exact ⟨shardKey k, a, hdone, rfl⟩

/-- A snapshot of an earlier state catches up. -/
theorem catchesUp_of_builds (d : Domain Id S P) {id : Id} {a : Aggregate Id S P}
    {evs stream : List (AggregateEvent Id P)} (h : Builds d.total id a evs)
    (hevs : evs <+: stream) (hhist : History id stream)
    (hshort : stream.length < 2 ^ 31 - 1) (haccepts : d.Accepts d.init stream) :
    ∃ a', a.applyEvents d (stream.drop a.version.toInt.toNat) = .returned a' ∧
      Builds d.total id a' stream := by
  obtain ⟨tail, rfl⟩ := hevs
  obtain ⟨sk, loaded, changes, rfl, rfl⟩ := h
  rw [List.length_append, List.length_append] at hshort
  have hv : (built d.total id sk loaded changes).version.toInt.toNat =
      (loaded ++ changes).length := by
    rw [built_version, Int32.toInt_ofNat_of_lt (by omega), List.length_append]
    omega
  rw [hv, List.drop_left]
  exact ⟨_, applyEvents_accepted d sk hhist haccepts, sk, loaded, changes ++ tail, rfl, by simp⟩

end Returned

section Users

open Milde.UserManagement

def noneExisting : Existing Nat UserState UserEvent := ⟨[], List.nodup_nil⟩

/-- The calls of the task for user 7: it begins, its read returns, it ends. -/
def createdTask (ended : Bool) : List UpdateLabel :=
  .start 0 :: if ended then [.proceed 0, .proceed 0] else []

def createdTaskEnd (ended : Bool) : Update Nat UserState UserEvent :=
  let begun := Update.startWith userDomain.domain createdStore noneExisting fun _ => 5
  if ended then
    { begun with
      objects := Function.update begun.objects (.own 0 7)
        ((begun.objects (.own 0 7)).applyEvents userDomain.domain createdUser.changes).object
      tasks := [.finished]
      added := [.own 0 7] }
  else { begun with tasks := [.applying createdUser.changes] }

theorem createdTask_run (ended : Bool) :
    Transition.run (updateStep userDomain.domain createdStore noneExisting.hash)
      (Update.startWith userDomain.domain createdStore noneExisting fun _ => 5)
      (createdTask ended) = some (createdTaskEnd ended) := by
  have hread : orderByVersion (getEvents createdUser.changes 0) = createdUser.changes := by
    rw [getEvents_eq_drop, List.drop_zero]
    exact List.mergeSort_singleton _
  have hstart : updateStep userDomain.domain createdStore noneExisting.hash
      (Update.startWith userDomain.domain createdStore noneExisting fun _ => 5) (.start 0) =
        some (createdTaskEnd false) := by
    have hbegin : updateStep userDomain.domain createdStore noneExisting.hash
        (Update.startWith userDomain.domain createdStore noneExisting fun _ => 5) (.start 0) =
        some { Update.startWith userDomain.domain createdStore noneExisting fun _ => 5 with
          tasks := [.applying (orderByVersion (getEvents createdUser.changes 0))] } := rfl
    rw [hbegin, hread]
    rfl
  refine Transition.run_cons_eq_some.mpr ⟨_, hstart, ?_⟩
  cases ended with
  | false => rfl
  | true => rfl

theorem createdStore_short (id : Nat) : (createdStore.aggregate id).length < 2 ^ 31 - 1 := by
  by_cases hid : id = 7
  · subst hid
    decide
  · show (Function.update (fun _ => []) 7 createdUser.changes id).length < _
    rw [Function.update_of_ne hid]
    decide

/-- The one task has ended before the list is read. -/
theorem returnsEverything_createdUser :
    ReturnsEverything userDomain.domain createdStore (createdTaskEnd true) :=
  (returnsEverything_iff createdStore_streams createdStore_short (createdTask_run true) rfl).mpr
    fun id hid => by
      obtain rfl : id = 7 := List.mem_singleton.mp hid
      exact ⟨by decide, fun a ha => by cases ha⟩

/-- The loop is over, every task having been started, and the read of `T-7` has not
    returned: the list is empty. -/
theorem returnsEverything_fails_createdUser :
    Transition.run (updateStep userDomain.domain createdStore noneExisting.hash)
        (Update.startWith userDomain.domain createdStore noneExisting fun _ => 5)
        (createdTask false) = some (createdTaskEnd false) ∧
      (createdTaskEnd false).failed = false ∧
      (∀ t ∈ (createdTaskEnd false).tasks, t ≠ .waiting) ∧
      ¬ ReturnsEverything userDomain.domain createdStore (createdTaskEnd false) := by
  refine ⟨createdTask_run false, rfl, by decide, fun h => ?_⟩
  obtain ⟨a, hfilter, -⟩ := h 7 (by decide)
  cases hfilter

end Users

end Milde.AggregateCache
