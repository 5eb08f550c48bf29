/-
  Milde.AggregateCache.Restarts

  A service that is stopped and started again, with requests in between that may fail at any
  call of their saves.

  A start reads the snapshots in Redis and brings them up to date with the streams that
  `T-Ids` lists.  It takes the list that `UpdateAggregates` returns as it finds it: a task
  that has not ended by then is left out, and the cache gets the snapshot that was in Redis
  before, or nothing.  When all tasks have ended and no exception has escaped, the cache is
  whole again, whatever was frozen or lost in Redis before (`restart_recovers`); tasks that
  share an object do no harm then, since one that has read what another applies throws.  What
  no start finds is an aggregate whose first save has failed between its append to `T-{id}`
  and the one to `T-Ids`, and no request can reach it either (`lost_iff_unlisted`).
-/
import Milde.AggregateCache.Durability

namespace Milde.AggregateCache

open Milde.EventSourcing Milde.EventStore

variable {Id S P : Type}

/-- A request, or a start with the turns that its tasks take. -/
inductive LifeLabel (Id P : Type) where
  | request (r : Request Id P)
  | restart (shardKey : Nat → Int32) (turns : List UpdateLabel)

/-- One step of a service.  A start goes on with what the tasks have done by then; one that
    throws does not come up and leaves nothing behind.  Tasks that are still running touch
    nothing but their own objects afterwards, and an exception that escapes from one of them
    ends the process: what follows is the next start. -/
def Process.life [DecidableEq Id] (d : Domain Id S P) (T : String) (p : Process Id S P) :
    LifeLabel Id P → Option (Process Id S P)
  | .request r => p.step d T r
  | .restart shardKey turns =>
      (Transition.run (updateStep d p.store p.redis)
        (Update.start d p.store p.redis shardKey) turns).bind (initializeCache p.store p.redis)

/-- All tasks of the start have ended when it takes their list. -/
def Process.Awaits [DecidableEq Id] (d : Domain Id S P) (p : Process Id S P)
    (shardKey : Nat → Int32) (turns : List UpdateLabel) : Prop :=
  ∀ u, Transition.run (updateStep d p.store p.redis)
    (Update.start d p.store p.redis shardKey) turns = some u → ∀ t ∈ u.tasks, t = .finished

/-- The versions that are reached are in the range of `int`, and new objects raise an event
    before they are saved. -/
def LifeLabel.InRange (p : Process Id S P) : LifeLabel Id P → Prop
  | .request r => r.InRange p ∧ r.Begins
  | .restart _ _ => ∀ id, (p.store.aggregate id).length < 2 ^ 31 - 1

/-- The first save of the aggregate throws between its append to `T-{id}` and the one to
    `T-Ids`. -/
def LifeLabel.Loses (id : Id) : LifeLabel Id P → Prop
  | .request (.create id' _ _ fails _) => id' = id ∧ Stores fails ∧ fails .ids = true
  | .request (.change _ _ _ _) => False
  | .restart _ _ => False

/-- The aggregate has events, and `T-Ids` does not list it. -/
def Process.Unlisted (p : Process Id S P) (id : Id) : Prop :=
  p.store.aggregate id ≠ [] ∧ id ∉ p.store.ids

/-- What a start makes of a store and of Redis when it has brought the aggregates `ids` up to
    date. -/
def Process.broughtUp [DecidableEq Id] (d : TotalDomain Id S P) (store : Store Id P)
    (redis : RedisHash Id S) (ids : List Id) : Process Id S P :=
  let view id := if id ∈ ids then some (viewOf d 0 (store.aggregate id)) else redis id
  { store, redis := view, memory := populateCache view }

/-- What it makes of a store when it has brought up everything that `T-Ids` lists. -/
def Process.recovered [DecidableEq Id] (d : TotalDomain Id S P) (store : Store Id P) :
    Process Id S P :=
  Process.broughtUp d store (fun _ => none) store.ids

-- ============================================================================
-- Tasks that may share an object
-- ============================================================================

/-- How far a task is: what it has yet to apply ends the stream and begins no later than
    where its object is. -/
def Pending (stream evs : List (AggregateEvent Id P)) : UpdateTask Id P → Prop
  | .waiting => True
  | .applying rest => ∃ seen, seen ++ rest = stream ∧ seen <+: evs
  | .finished => evs = stream

/-- What the tasks have done as long as no exception has escaped. -/
structure Underway [DecidableEq Id] (d : TotalDomain Id S P) (store : Store Id P)
    (redis : RedisHash Id S) (u : Update Id S P) : Prop where
  ok : u.failed = false
  tasks : u.tasks.length = store.ids.length
  objects : ∀ (k : Nat) id t, store.ids[k]? = some id → u.tasks[k]? = some t →
    ∃ evs, Builds d id (u.objects (refOf redis k id)) evs ∧ evs <+: store.aggregate id ∧
      Pending (store.aggregate id) evs t
  added : ∀ r ∈ u.added, ∃ (k : Nat) (id : Id), store.ids[k]? = some id ∧
    u.tasks[k]? = some .finished ∧ r = refOf redis k id
  finished : ∀ (k : Nat) id, store.ids[k]? = some id → u.tasks[k]? = some .finished →
    refOf redis k id ∈ u.added

section Underway

variable [DecidableEq Id] {d : TotalDomain Id S P} {store : Store Id P} {redis : RedisHash Id S}
  {u u' : Update Id S P}

omit [DecidableEq Id] in
theorem refOf_id {redis : RedisHash Id S} {k k' : Nat} {id id' : Id}
    (h : refOf redis k' id' = refOf redis k id) : id' = id := by
  unfold refOf at h
  split at h
  · split at h
    · exact Ref.existing.inj h
    · cases h
  · split at h
    · cases h
    · exact (Ref.own.inj h).2

/-- Before any task has run. -/
theorem underway_start (shardKey : Nat → Int32) (hsnap : Snapshots d store redis) :
    Underway d store redis (Update.start d.domain store redis shardKey) where
  ok := rfl
  tasks := List.length_map ..
  objects := by
    intro k id t hid ht
    obtain rfl : t = .waiting := by
      simp only [Update.start, List.getElem?_map, hid, Option.map_some, Option.some.injEq] at ht
      exact ht.symm
    show ∃ evs, Builds d id (objectOf d.domain redis shardKey (refOf redis k id)) evs ∧ _
    unfold refOf
    split
    · rename_i hsome
      obtain ⟨v, hv⟩ := Option.isSome_iff_exists.mp hsome
      obtain ⟨-, sk, n, rfl⟩ := hsnap id v hv
      refine ⟨(store.aggregate id).take n, ?_, List.take_prefix n _, trivial⟩
      simp only [objectOf, hv, Option.getD_some]
      exact builds_ofSnapshot d id sk _
    · exact ⟨[], builds_new d id (shardKey k), List.nil_prefix, trivial⟩
  added := by
    intro r hr
    cases hr
  finished := by
    intro k id hid ht
    simp only [Update.start, List.getElem?_map, hid, Option.map_some] at ht
    cases ht

/-- An object takes an event of the stream when it is the next one. -/
theorem Builds.seen_eq {id : Id} {a a' : Aggregate Id S P} {e : AggregateEvent Id P}
    {evs seen rest stream : List (AggregateEvent Id P)} (h : Builds d id a evs)
    (hevs : evs <+: stream) (hseen : seen <+: evs) (hstream : seen ++ e :: rest = stream)
    (hhist : History id stream) (hshort : stream.length < 2 ^ 31 - 1)
    (happly : a.applyEvent d.domain e = .returned a') : seen = evs := by
  have hown : e.aggregateId = id := hhist.own e (by rw [← hstream]; simp)
  have hversion : e.version = Int32.ofNat (seen.length + 1) := by
    subst hstream
    exact hhist.version_append_cons
  have hnext := ((Aggregate.applyEvent_own_iff (hown.trans h.id_eq.symm)).mp happly).1
  rw [h.version, hversion] at hnext
  have hlen := hevs.length_le
  have hlen' := hseen.length_le
  have hnext : Int32.ofNat (seen.length + 1) = Int32.ofNat (evs.length + 1) := by
    rw [hnext, Int32.ofNat_add]
    rfl
  have hnext := congrArg Int32.toInt hnext
  rw [Int32.toInt_ofNat_of_lt (by omega), Int32.toInt_ofNat_of_lt (by omega)] at hnext
  exact hseen.eq_of_length (by omega)

/-- A task moves on; its object may move with it. -/
theorem Underway.setTask (h : Underway d store redis u) {k : Nat} {id : Id}
    (hid : store.ids[k]? = some id) {t₀ t : UpdateTask Id P}
    (ht₀ : u.tasks[k]? = some t₀) (hrunning : t₀ ≠ .finished)
    {objects : Ref Id → Aggregate Id S P} {added : List (Ref Id)}
    (hobjects : ∀ (k' : Nat) id' t', k' ≠ k → store.ids[k']? = some id' →
      u.tasks[k']? = some t' →
        ∃ evs, Builds d id' (objects (refOf redis k' id')) evs ∧ evs <+: store.aggregate id' ∧
          Pending (store.aggregate id') evs t')
    (hself : ∃ evs, Builds d id (objects (refOf redis k id)) evs ∧ evs <+: store.aggregate id ∧
      Pending (store.aggregate id) evs t)
    (hadded : added = u.added ∧ t ≠ .finished ∨
      added = u.added ++ [refOf redis k id] ∧ t = .finished) :
    Underway d store redis { u with objects, tasks := u.tasks.set k t, added } where
  ok := h.ok
  tasks := by
    show (u.tasks.set k t).length = _
    rw [List.length_set, h.tasks]
  objects := by
    intro k' id' t' hid' ht'
    rcases List.getElem?_set_cases ht' with ⟨rfl, rfl⟩ | ⟨hne, ht'⟩
    · obtain rfl : id = id' := Option.some.inj (hid.symm.trans hid')
      exact hself
    · exact hobjects k' id' t' (Ne.symm hne) hid' ht'
  added := by
    intro r hr
    have hold : r ∈ u.added → ∃ (k' : Nat) (id' : Id), store.ids[k']? = some id' ∧
        (u.tasks.set k t)[k']? = some .finished ∧ r = refOf redis k' id' := by
      intro hmem
      obtain ⟨k', id', hid', ht', hr⟩ := h.added r hmem
      refine ⟨k', id', hid', ?_, hr⟩
      rw [List.getElem?_set_ne, ht']
      rintro rfl
      exact hrunning (Option.some.inj (ht₀.symm.trans ht'))
    rcases hadded with ⟨rfl, -⟩ | ⟨rfl, rfl⟩
    · exact hold hr
    · rcases List.mem_append.mp hr with hr | hr
      · exact hold hr
      · have hlt := (List.getElem?_eq_some_iff.mp ht₀).1
        exact ⟨k, id, hid, List.getElem?_set_self hlt, List.mem_singleton.mp hr⟩
  finished := by
    intro k' id' hid' ht'
    rcases List.getElem?_set_cases ht' with ⟨rfl, rfl⟩ | ⟨-, hold⟩
    · obtain rfl : id = id' := Option.some.inj (hid.symm.trans hid')
      rcases hadded with ⟨-, hnot⟩ | ⟨rfl, -⟩
      · exact absurd rfl hnot
      · exact List.mem_append_right _ (List.mem_singleton_self _)
    · have hmem := h.finished k' id' hid' hold
      rcases hadded with ⟨rfl, -⟩ | ⟨rfl, -⟩
      · exact hmem
      · exact List.mem_append_left _ hmem

/-- A step that throws nothing. -/
theorem Underway.step (h : Underway d store redis u)
    (hstreams : ∀ id, History id (store.aggregate id))
    (hshort : ∀ id, (store.aggregate id).length < 2 ^ 31 - 1) {l : UpdateLabel}
    (hstep : updateStep d.domain store redis u l = some u') (hok : u'.failed = false) :
    Underway d store redis u' := by
  obtain ⟨-, k, id, hid, ⟨ht, -, -, rfl⟩ | ⟨ht, -, -, rfl⟩ | ⟨ht, -, rfl⟩ |
    ⟨e, rest, a, ht, -, happly, rfl⟩ | ⟨e, rest, a, ht, -, -, rfl⟩⟩ := updateStep_cases hstep
  · cases hok
  · obtain ⟨evs, hevs, hpre, -⟩ := h.objects k id _ hid ht
    refine h.setTask hid ht (by simp) (fun k' id' t' _ hid' ht' => h.objects k' id' t' hid' ht')
      ?_ (Or.inl ⟨rfl, by simp⟩)
    exact ⟨evs, hevs, hpre, evs, (hevs.read hpre (hstreams id) (hshort id)).2, List.prefix_rfl⟩
  · obtain ⟨evs, hevs, hpre, seen, hstream, hseen⟩ := h.objects k id _ hid ht
    rw [List.append_nil] at hstream
    subst hstream
    have hall : evs = store.aggregate id :=
      hpre.eq_of_length (Nat.le_antisymm hpre.length_le hseen.length_le)
    exact h.setTask hid ht (by simp)
      (fun k' id' t' _ hid' ht' => h.objects k' id' t' hid' ht') ⟨evs, hevs, hpre, hall⟩
      (Or.inr ⟨rfl, rfl⟩)
  · obtain ⟨evs, hevs, hpre, seen, hstream, hseen⟩ := h.objects k id _ hid ht
    obtain rfl := hevs.seen_eq hpre hseen hstream (hstreams id) (hshort id) happly
    have hnext : seen ++ [e] <+: store.aggregate id := ⟨rest, by rw [← hstream]; simp⟩
    obtain ⟨a', happly', hevs'⟩ := hevs.apply ((hstreams id).of_isPrefix hnext)
    obtain rfl : a' = a := Outcome.returned.inj (happly'.symm.trans happly)
    refine h.setTask hid ht (by simp) (fun k' id' t' _ hid' ht' => ?_) ?_
      (Or.inl ⟨rfl, by simp⟩)
    · by_cases href : refOf redis k' id' = refOf redis k id
      · -- another task with this object: it has not ended, and what it has read stays behind
        obtain rfl := refOf_id href
        obtain ⟨evs', hevs₁, hpre', hpending⟩ := h.objects k' id' t' hid' ht'
        rw [href] at hevs₁ ⊢
        obtain rfl := hevs₁.inj hevs hpre' hpre (hshort id')
        rw [Function.update_self]
        refine ⟨evs' ++ [e], hevs', hnext, ?_⟩
        cases t' with
        | waiting => trivial
        | applying rest' =>
            obtain ⟨seen', hstream', hseen'⟩ := hpending
            exact ⟨seen', hstream', hseen'.trans (List.prefix_append _ _)⟩
        | finished =>
            have hlen := congrArg List.length (hpending.trans hstream.symm)
            simp at hlen
      · rw [Function.update_of_ne href]
        exact h.objects k' id' t' hid' ht'
    · rw [Function.update_self]
      exact ⟨seen ++ [e], hevs', hnext, seen ++ [e], by rw [← hstream]; simp, List.prefix_rfl⟩
  · cases hok

/-- A run that throws nothing. -/
theorem Underway.run (h : Underway d store redis u)
    (hstreams : ∀ id, History id (store.aggregate id))
    (hshort : ∀ id, (store.aggregate id).length < 2 ^ 31 - 1) {ls : List UpdateLabel}
    (hrun : Transition.run (updateStep d.domain store redis) u ls = some u')
    (hok : u'.failed = false) : Underway d store redis u' := by
  induction ls generalizing u with
  | nil =>
      cases hrun
      exact h
  | cons l ls ih =>
      obtain ⟨v, hv, hrun⟩ := Transition.run_cons_eq_some.mp hrun
      refine ih (h.step hstreams hshort hv ?_) hrun
      -- an exception would have been the end
      cases ls with
      | nil =>
          cases hrun
          exact hok
      | cons l' ls =>
          obtain ⟨_, hnext, -⟩ := Transition.run_cons_eq_some.mp hrun
          exact (updateStep_cases hnext).1

/-- What a start makes of the tasks that have ended. -/
theorem Underway.initializes (h : Underway d store redis u)
    (hstored : ∀ id ∈ store.ids, store.aggregate id ≠ []) :
    ∃ ids ⊆ store.ids, initializeCache store redis u = some (Process.broughtUp d store redis ids) ∧
      ((∀ t ∈ u.tasks, t = .finished) → store.ids ⊆ ids) := by
  -- an object in the list is the replay of its whole stream
  have hbuilds : ∀ a ∈ u.added.map u.objects, a.id ∈ store.ids ∧
      Builds d a.id a (store.aggregate a.id) := by
    intro a ha
    obtain ⟨r, hr, rfl⟩ := List.mem_map.mp ha
    obtain ⟨k, id, hid, ht, rfl⟩ := h.added r hr
    obtain ⟨evs, hevs, -, rfl⟩ := h.objects k id _ hid ht
    rw [hevs.id_eq]
    exact ⟨List.mem_of_getElem? hid, hevs⟩
  refine ⟨(u.added.map u.objects).map Aggregate.id, ?_, ?_, fun hdone id hmem => ?_⟩
  · intro id hid
    obtain ⟨a, ha, rfl⟩ := List.mem_map.mp hid
    exact (hbuilds a ha).1
  · have hviews : ∀ id, ∀ a ∈ u.added.map u.objects, a.id = id →
        a.view = viewOf d 0 (store.aggregate id) := by
      rintro id a ha rfl
      obtain ⟨hid, hb⟩ := hbuilds a ha
      exact hb.view (hstored a.id hid)
    have hredis : saveAggregates redis (u.added.map u.objects) =
        (Process.broughtUp d store redis ((u.added.map u.objects).map Aggregate.id)).redis :=
      funext fun id => saveAggregates_apply (hviews id)
    rw [initializeCache, h.ok]
    simp only [Bool.false_eq_true, if_false, hredis]
    rfl
  · obtain ⟨k, hid⟩ := List.mem_iff_getElem?.mp hmem
    have hlt : k < u.tasks.length := by
      rw [h.tasks]
      exact (List.getElem?_eq_some_iff.mp hid).1
    have ht := List.getElem?_eq_getElem hlt
    rw [hdone _ (List.getElem_mem hlt)] at ht
    obtain ⟨evs, hevs, -, -⟩ := h.objects k id _ hid ht
    exact List.mem_map.mpr ⟨_, List.mem_map_of_mem (h.finished k id hid ht), hevs.id_eq⟩

/-- One task runs from its beginning to its end while the others wait. -/
theorem Underway.run_task (h : Underway d store redis u)
    (hstreams : ∀ id, History id (store.aggregate id))
    (hshort : ∀ id, (store.aggregate id).length < 2 ^ 31 - 1) {k : Nat} {id : Id}
    (hid : store.ids[k]? = some id) (ht : u.tasks[k]? = some .waiting) :
    ∃ ls u', Transition.run (updateStep d.domain store redis) u ls = some u' ∧
      u'.failed = false ∧ u'.tasks = u.tasks.set k .finished := by
  obtain ⟨evs, hevs, ⟨tail, hstream⟩, -⟩ := h.objects k id _ hid ht
  have hlt := (List.getElem?_eq_some_iff.mp ht).1
  have hstart := step_start (d := d.domain) h.ok hid ht hevs hstream (hstreams id) (hshort id)
  have ht₁ : (u.tasks.set k (.applying tail))[k]? = some (.applying (tail ++ [])) := by
    rw [List.append_nil]
    exact List.getElem?_set_self hlt
  have hhist : History id (evs ++ tail) := by
    rw [hstream]
    exact hstreams id
  have hbuilds : Builds d.domain.total id (u.objects (refOf redis k id)) evs := hevs
  obtain ⟨u₂, hrun, hok, htasks, -, -⟩ :=
    run_proceed (u := { u with tasks := u.tasks.set k (.applying tail) }) h.ok hid ht₁ hbuilds
      hhist (d.accepts _ _)
  have ht₂ : u₂.tasks[k]? = some (.applying []) := by
    rw [htasks]
    exact List.getElem?_set_self (by rw [List.length_set]; exact hlt)
  have hend : updateStep d.domain store redis u₂ (.proceed k) = some { u₂ with
      tasks := u₂.tasks.set k .finished
      added := u₂.added ++ [refOf redis k id] } := by
    simp only [updateStep, hok, ht₂, hid]
  refine ⟨_, _, Transition.run_cons_eq_some.mpr ⟨_, hstart,
    Transition.run_trans hrun (Transition.run_single hend)⟩, hok, ?_⟩
  show u₂.tasks.set k .finished = _
  rw [htasks, List.set_set, List.set_set]

/-- **A start can always come up**: when its tasks run one after another, none throws. -/
theorem Underway.completes (hsnap : Snapshots d store redis) (shardKey : Nat → Int32)
    (hstreams : ∀ id, History id (store.aggregate id))
    (hshort : ∀ id, (store.aggregate id).length < 2 ^ 31 - 1) :
    ∃ ls u, Transition.run (updateStep d.domain store redis)
      (Update.start d.domain store redis shardKey) ls = some u ∧ u.failed = false ∧
      ∀ t ∈ u.tasks, t = .finished := by
  -- after the first n tasks
  have hfirst : ∀ n ≤ store.ids.length, ∃ ls u, Transition.run (updateStep d.domain store redis)
      (Update.start d.domain store redis shardKey) ls = some u ∧ u.failed = false ∧
      ∀ (k : Nat) t, u.tasks[k]? = some t → t = if k < n then .finished else .waiting := by
    intro n hn
    induction n with
    | zero =>
        refine ⟨[], _, rfl, rfl, fun k t ht => ?_⟩
        simp only [Update.start, List.getElem?_map, Option.map_eq_some_iff] at ht
        obtain ⟨_, -, rfl⟩ := ht
        rfl
    | succ n ih =>
        obtain ⟨ls, u, hrun, hok, htasks⟩ := ih (by omega)
        have h := (underway_start shardKey hsnap).run hstreams hshort hrun hok
        have hid := List.getElem?_eq_getElem (l := store.ids) (i := n) (by omega)
        have hlt : n < u.tasks.length := by
          rw [h.tasks]
          omega
        have ht := List.getElem?_eq_getElem hlt
        rw [htasks n _ ht, if_neg (Nat.lt_irrefl n)] at ht
        obtain ⟨ls', u', hrun', hok', htasks'⟩ := h.run_task hstreams hshort hid ht
        refine ⟨ls ++ ls', u', Transition.run_trans hrun hrun', hok', fun k t hk => ?_⟩
        rw [htasks'] at hk
        rcases List.getElem?_set_cases hk with ⟨rfl, rfl⟩ | ⟨hne, hk⟩
        · rw [if_pos (Nat.lt_succ_self n)]
        · rw [htasks k t hk]
          by_cases hkn : k < n
          · rw [if_pos hkn, if_pos (by omega)]
          · rw [if_neg hkn, if_neg (by omega)]
  obtain ⟨ls, u, hrun, hok, htasks⟩ := hfirst store.ids.length le_rfl
  have h := (underway_start shardKey hsnap).run hstreams hshort hrun hok
  refine ⟨ls, u, hrun, hok, fun t ht => ?_⟩
  obtain ⟨k, hk⟩ := List.mem_iff_getElem?.mp ht
  have hlt := (List.getElem?_eq_some_iff.mp hk).1
  rw [htasks k t hk, if_pos (by rw [← h.tasks]; exact hlt)]

end Underway

-- ============================================================================
-- What is listed
-- ============================================================================

/-- Only stored aggregates are listed, and only listed ones are cached or in Redis, where
    each snapshot is of a beginning of its stream. -/
structure Process.Listed (p : Process Id S P) (d : TotalDomain Id S P) : Prop where
  snapshots : Snapshots d p.store p.redis
  stored : ∀ id ∈ p.store.ids, p.store.aggregate id ≠ []
  redis : ∀ id v, p.redis id = some v → id ∈ p.store.ids
  memory : ∀ id a, p.memory id = some a → id ∈ p.store.ids

section Listed

variable [DecidableEq Id] {d : TotalDomain Id S P} {T : String} {p p' : Process Id S P}
  {id : Id} {a : Aggregate Id S P} {sk : Int32} {loaded tail changes : List (AggregateEvent Id P)}

/-- **What a save does to `T-Ids`**: it adds the id once the append to `T-{id}` has gone
    through, unless its own call throws. -/
theorem mem_saveAggregate_ids (T : String) (drop : Bool) (fails : SaveCall → Bool)
    (s : Store Id P) (a : Aggregate Id S P) (id : Id) :
    id ∈ (saveAggregate T drop fails s a).object.1.ids ↔ id ∈ s.ids ∨
      id = a.id ∧ Stores fails ∧
        saveEvents (s.aggregate a.id) a.changes (expectedVersion a a.changes) ≠ none ∧
        fails .ids = false := by
  simp only [saveAggregate, Aggregate.getUncommitedChanges, Store.appendTyped_aggregate, Stores]
  split
  · rename_i hcategory
    simp [Outcome.object, hcategory]
  rename_i hcategory
  split
  · rename_i haggregate
    simp [Outcome.object, haggregate]
  rename_i haggregate
  split
  · rename_i hrefused
    simp [Outcome.object, hrefused]
  rename_i stream hsave
  split
  · rename_i hids
    simp [Outcome.object, hids]
  rename_i hids
  have hall : (fails .category = false ∧ fails .aggregate = false) ∧
      saveEvents (s.aggregate a.id) a.changes (expectedVersion a a.changes) ≠ none ∧
      fails .ids = false :=
    ⟨⟨Bool.eq_false_of_not_eq_true hcategory, Bool.eq_false_of_not_eq_true haggregate⟩,
      by simp [hsave], Bool.eq_false_of_not_eq_true hids⟩
  rw [and_iff_left hall]
  obtain ⟨s', -, hmem, hends⟩ := publish_spec fails
    (((s.appendTyped T a.changes).setAggregate a.id stream).appendId drop a.id)
    (eventsByType a.changes)
  rcases hends with ⟨hends, -⟩ | ⟨hends, -⟩ <;> rw [hends]
  · show id ∈ s'.ids ↔ _
    rw [hmem, Store.mem_appendId_ids]
    rfl
  · show id ∈ s'.ids ↔ _
    rw [hmem, Store.mem_appendId_ids]
    rfl

theorem Process.save_store (p : Process Id S P) (T : String) (drop : Bool)
    (fails : SaveCall → Bool) (a : Aggregate Id S P) :
    (p.save T drop fails a).1.store = (saveAggregate T drop fails p.store a).object.1 := by
  cases hsave : saveAggregate T drop fails p.store a with
  | threw r => simp only [Process.save, hsave, Outcome.object]
  | returned r =>
      simp only [Process.save, hsave, Process.cache, Outcome.object]
      split
      · rfl
      · rfl

/-- A save that throws leaves both caches alone. -/
theorem Process.save_of_not_saves {drop : Bool} {fails : SaveCall → Bool}
    (h : p.saves T drop fails a = false) :
    (p.save T drop fails a).1.redis = p.redis ∧ (p.save T drop fails a).1.memory = p.memory := by
  unfold Process.saves at h
  split at h
  · rename_i r hsave
    have hredis : fails .redis = true := by simpa using h
    simp only [Process.save, hsave, Process.cache, if_pos hredis]
    exact ⟨trivial, trivial⟩
  · rename_i r hsave
    simp only [Process.save, hsave]
    exact ⟨trivial, trivial⟩

/-- One that returns has listed its object and cached it twice. -/
theorem Process.save_of_saves {drop : Bool} {fails : SaveCall → Bool}
    (h : p.saves T drop fails a = true) :
    (p.save T drop fails a).1.redis =
        Function.update p.redis a.id (some (p.save T drop fails a).2.view) ∧
      (p.save T drop fails a).1.memory =
        Function.update p.memory a.id (some (p.save T drop fails a).2) ∧
      a.id ∈ (p.save T drop fails a).1.store.ids := by
  unfold Process.saves at h
  split at h
  · rename_i r hsave
    obtain ⟨s', a'⟩ := r
    have hredis : ¬ fails .redis = true := by simpa using h
    obtain ⟨rfl, -, hids, -⟩ := saveAggregate_returned hsave
    simp only [Process.save, hsave, Process.cache, if_neg hredis]
    exact ⟨rfl, rfl, (hids a.id).mpr (Or.inr rfl)⟩
  · cases h

omit [DecidableEq Id] in
/-- A snapshot of a beginning stays one while streams grow. -/
theorem Snapshots.grows {store store' : Store Id P} {redis : RedisHash Id S}
    (h : Snapshots d store redis) (hgrows : ∀ id, store.aggregate id <+: store'.aggregate id) :
    Snapshots d store' redis := by
  intro id v hv
  obtain ⟨hne, sk, n, rfl⟩ := h id v hv
  obtain ⟨more, hmore⟩ := hgrows id
  refine ⟨(hgrows id).ne_nil hne, sk, min n (store.aggregate id).length, ?_⟩
  rw [← hmore, List.take_append_of_le_length (Nat.min_le_right ..), List.take_eq_take_min]

/-- The save of an object that was loaded from the whole stream lists its id. -/
theorem CachedBy.mem_save_ids (h : CachedBy d p.store id a sk loaded tail changes)
    (hshort : (p.store.aggregate id).length < 2 ^ 31 - 1) (drop : Bool)
    (fails : SaveCall → Bool) (id' : Id) :
    id' ∈ (p.save T drop fails a).1.store.ids ↔ id' ∈ p.store.ids ∨
      id' = id ∧ tail = [] ∧ Stores fails ∧ fails .ids = false := by
  have haccept : saveEvents (p.store.aggregate id) changes (expectedVersion a changes) ≠ none ↔
      tail = [] := by
    rw [h.stream] at hshort ⊢
    rw [h.object]
    exact saveEvents_built_iff d id sk hshort
  have hid : a.id = id := by rw [h.object, built_id]
  have hchanges : a.changes = changes := by rw [h.object, built_changes]
  rw [Process.save_store, mem_saveAggregate_ids, hid, hchanges, haccept]
  exact or_congr_right (and_congr_right fun _ => and_left_comm)

/-- What the save of a cached or a new object leaves of the lists. -/
theorem Process.Listed.save (h : p.Listed d) (hby : CachedBy d p.store id a sk loaded tail changes)
    (hshort : (p.store.aggregate id).length < 2 ^ 31 - 1) (hne : loaded ++ (tail ++ changes) ≠ [])
    (drop : Bool) (fails : SaveCall → Bool) : (p.save T drop fails a).1.Listed d := by
  have hid : a.id = id := by rw [hby.object, built_id]
  have hkept := hby.kept hshort T drop fails
  have hgrows : ∀ id', p.store.aggregate id' <+: (p.save T drop fails a).1.store.aggregate id' := by
    intro id'
    by_cases heq : id' = id
    · rw [heq]
      exact hkept.grows
    · rw [hkept.aggregate id' heq]
  have hids := hby.mem_save_ids (T := T) hshort drop fails
  have hmono : ∀ id' ∈ p.store.ids, id' ∈ (p.save T drop fails a).1.store.ids :=
    fun id' hid' => (hids id').mpr (Or.inl hid')
  have hstored : ∀ id' ∈ (p.save T drop fails a).1.store.ids,
      (p.save T drop fails a).1.store.aggregate id' ≠ [] := by
    intro id' hid'
    rcases (hids id').mp hid' with hold | ⟨rfl, rfl, hstores, -⟩
    · exact (hgrows id').ne_nil (h.stored id' hold)
    · rw [hby.save_stream hshort T drop hstores]
      exact hne
  cases hsaves : p.saves T drop fails a with
  | false =>
      obtain ⟨hredis, hmemory⟩ := Process.save_of_not_saves hsaves
      refine ⟨?_, hstored, ?_, ?_⟩
      · rw [hredis]
        exact h.snapshots.grows hgrows
      · intro id' v hv
        rw [hredis] at hv
        exact hmono id' (h.redis id' v hv)
      · intro id' b hb
        rw [hmemory] at hb
        exact hmono id' (h.memory id' b hb)
  | true =>
      obtain ⟨hredis, hmemory, hlisted⟩ := Process.save_of_saves hsaves
      obtain ⟨-, hobject, -, hstream, -⟩ := hby.saved hshort hsaves
      rw [hid] at hredis hmemory hlisted
      refine ⟨?_, hstored, ?_, ?_⟩
      · intro id' v hv
        by_cases heq : id' = id
        · subst heq
          rw [hredis, Function.update_self, Option.some.injEq] at hv
          refine ⟨hstored id' hlisted, sk, (loaded ++ changes).length, ?_⟩
          rw [hstream, List.take_length, ← hv, hobject, built_view, List.append_nil]
        · rw [hredis, Function.update_of_ne heq] at hv
          exact h.snapshots.grows hgrows id' v hv
      · intro id' v hv
        by_cases heq : id' = id
        · rw [heq]
          exact hlisted
        · rw [hredis, Function.update_of_ne heq] at hv
          exact hmono id' (h.redis id' v hv)
      · intro id' b hb
        by_cases heq : id' = id
        · rw [heq]
          exact hlisted
        · rw [hmemory, Function.update_of_ne heq] at hb
          exact hmono id' (h.memory id' b hb)

/-- A request keeps the lists in order. -/
theorem Process.Listed.step (h : p.Listed d) (hsound : p.Sound d) {r : Request Id P}
    (hrange : r.InRange p) (hbegins : r.Begins) (hstep : p.step d.domain T r = some p') :
    p'.Listed d := by
  cases r with
  | change id events fails drop =>
      cases ha : p.memory id with
      | none =>
          obtain rfl := step_change_none ha hstep
          exact h
      | some a =>
          obtain ⟨hne, sk, loaded, tail, changes, hby⟩ := hsound.cached id a ha
          obtain ⟨raised, a', -, hby', -, rfl⟩ := hby.step_change ha hstep
          have hlen := hrange id
          have hevents : loaded ++ (tail ++ (changes ++ raised)) ≠ [] := by
            rw [hby.stream] at hne
            rw [← List.append_assoc]
            exact List.append_ne_nil_of_left_ne_nil hne _
          have hlisted := h.save (T := T) hby' (by omega) hevents drop fails
          have hids := hby'.mem_save_ids (T := T) (by omega) drop fails
          refine ⟨hlisted.snapshots, hlisted.stored, hlisted.redis, fun id' b hb => ?_⟩
          by_cases heq : id' = id
          · rw [heq]
            exact (hids id).mpr (Or.inl (h.memory id a ha))
          · rw [Process.mutate_memory_ne _ heq] at hb
            exact hlisted.memory id' b hb
  | create id sk events fails drop =>
      obtain ⟨-, -, raised, hraised, hby, rfl⟩ := CachedBy.of_create hstep
      have hlen := hrange id
      exact h.save (T := T) hby (by omega) (hraised hbegins) drop fails

/-- Saves of other objects leave the aggregate listed or not. -/
theorem CachedBy.save_unlisted_ne (h : CachedBy d p.store id a sk loaded tail changes)
    (hshort : (p.store.aggregate id).length < 2 ^ 31 - 1) (T : String) (drop : Bool)
    (fails : SaveCall → Bool) {id' : Id} (hne : id' ≠ id) :
    (p.save T drop fails a).1.Unlisted id' ↔ p.Unlisted id' := by
  have hids := h.mem_save_ids (T := T) hshort drop fails id'
  rw [or_iff_left fun hself => hne hself.1] at hids
  rw [Process.Unlisted, (h.kept hshort T drop fails).aggregate id' hne, hids]
  rfl

/-- **How an aggregate comes to be unlisted**: the request that creates it fails between its
    two appends. -/
theorem Process.Listed.step_unlisted (h : p.Listed d) (hsound : p.Sound d) {r : Request Id P}
    (hrange : r.InRange p) (hbegins : r.Begins) (hstep : p.step d.domain T r = some p') :
    p'.Unlisted id ↔ p.Unlisted id ∨ (LifeLabel.request r).Loses id := by
  cases r with
  | change id' events fails drop =>
      rw [or_iff_left (show ¬ (LifeLabel.request (.change id' events fails drop)).Loses id from
        fun hloses => hloses)]
      cases ha : p.memory id' with
      | none =>
          obtain rfl := step_change_none ha hstep
          exact Iff.rfl
      | some a =>
          obtain ⟨-, sk, loaded, tail, changes, hby⟩ := hsound.cached id' a ha
          obtain ⟨raised, a', -, hby', -, rfl⟩ := hby.step_change ha hstep
          have hlen := hrange id'
          by_cases heq : id = id'
          · -- what is cached is listed
            subst heq
            have hids := hby'.mem_save_ids (T := T) (by omega) drop fails id
            have hmem := h.memory id a ha
            exact iff_of_false (fun hnot => hnot.2 (hids.mpr (Or.inl hmem))) fun hnot => hnot.2 hmem
          · exact hby'.save_unlisted_ne (by omega) T drop fails heq
  | create id' sk events fails drop =>
      obtain ⟨-, hnil, raised, hraised, hby, rfl⟩ := CachedBy.of_create hstep
      have hlen := hrange id'
      have hshort : (p.store.aggregate id').length < 2 ^ 31 - 1 := by omega
      by_cases heq : id = id'
      · subst heq
        rw [or_iff_right fun hnot : p.Unlisted id => hnot.1 hnil]
        by_cases hstores : Stores fails
        · have hids := hby.mem_save_ids (T := T) hshort drop fails id
          rw [or_iff_right fun hmem => h.stored id hmem hnil] at hids
          rw [Process.Unlisted, hby.save_stream hshort T drop hstores, hids]
          simp [LifeLabel.Loses, hraised hbegins, hstores]
        · refine iff_of_false (fun hnot => hnot.1 ?_) fun hloses => hstores hloses.2.1
          rcases hby.save_cases hshort T drop fails with
            ⟨-, -, store, hagg, hsave⟩ | ⟨-, hall, -⟩
          · rw [hsave]
            exact (congrFun hagg id).trans hnil
          · exact absurd hall hstores
      · have hnot : ¬ (LifeLabel.request (.create id' sk events fails drop)).Loses id :=
          fun hloses => heq hloses.1.symm
        rw [or_iff_left hnot]
        exact hby.save_unlisted_ne hshort T drop fails heq

/-- Every object that a start has made is the replay of a beginning of its stream, and of the
    whole stream where the start has brought it up. -/
theorem Process.broughtUp_memory {store : Store Id P} {redis : RedisHash Id S} {ids : List Id}
    (hsnap : Snapshots d store redis)
    (ha : (Process.broughtUp d store redis ids).memory id = some a) :
    (id ∈ ids ∧ a = built d id 0 (store.aggregate id) []) ∨
      ((redis id).isSome ∧ ∃ sk n, a = built d id sk ((store.aggregate id).take n) []) := by
  by_cases hid : id ∈ ids
  · simp only [broughtUp, populateCache, if_pos hid, Option.map_some, Option.some.injEq] at ha
    refine Or.inl ⟨hid, ?_⟩
    rw [← ha]
    exact ofSnapshot_viewOf d id 0 (store.aggregate id)
  · simp only [broughtUp, populateCache, if_neg hid, Option.map_eq_some_iff] at ha
    obtain ⟨v, hv, rfl⟩ := ha
    obtain ⟨-, sk, n, rfl⟩ := hsnap id v hv
    exact Or.inr ⟨by rw [hv]; rfl, sk, n, ofSnapshot_viewOf d id sk _⟩

/-- What a start has made is in order. -/
theorem Process.broughtUp_listed {store : Store Id P} {redis : RedisHash Id S} {ids : List Id}
    (hstored : ∀ id ∈ store.ids, store.aggregate id ≠ []) (hsnap : Snapshots d store redis)
    (hredis : ∀ id v, redis id = some v → id ∈ store.ids) (hids : ids ⊆ store.ids) :
    (Process.broughtUp d store redis ids).Listed d where
  snapshots := by
    intro id v hv
    by_cases hid : id ∈ ids
    · simp only [broughtUp, if_pos hid, Option.some.injEq] at hv
      refine ⟨hstored id (hids hid), 0, (store.aggregate id).length, ?_⟩
      rw [← hv]
      show _ = viewOf d 0 ((store.aggregate id).take _)
      rw [List.take_length]
    · simp only [broughtUp, if_neg hid] at hv
      exact hsnap id v hv
  stored := hstored
  redis := by
    intro id v hv
    by_cases hid : id ∈ ids
    · exact hids hid
    · simp only [broughtUp, if_neg hid] at hv
      exact hredis id v hv
  memory := by
    intro id a ha
    rcases Process.broughtUp_memory hsnap ha with ⟨hid, -⟩ | ⟨hsome, -⟩
    · exact hids hid
    · obtain ⟨v, hv⟩ := Option.isSome_iff_exists.mp hsome
      exact hredis id v hv

theorem Process.broughtUp_sound {store : Store Id P} {redis : RedisHash Id S} {ids : List Id}
    (hstreams : ∀ id, History id (store.aggregate id))
    (hstored : ∀ id ∈ store.ids, store.aggregate id ≠ []) (hsnap : Snapshots d store redis)
    (hids : ids ⊆ store.ids) : (Process.broughtUp d store redis ids).Sound d where
  streams := hstreams
  cached := by
    intro id a ha
    rcases Process.broughtUp_memory hsnap ha with ⟨hid, rfl⟩ | ⟨hsome, sk, n, rfl⟩
    · refine ⟨hstored id (hids hid), 0, store.aggregate id, [], [], rfl,
        (List.append_nil _).symm, ?_⟩
      rw [List.append_nil]
      exact hstreams id
    · obtain ⟨v, hv⟩ := Option.isSome_iff_exists.mp hsome
      refine ⟨(hsnap id v hv).1, sk, (store.aggregate id).take n, (store.aggregate id).drop n, [],
        rfl, (List.take_append_drop n _).symm, ?_⟩
      rw [List.append_nil]
      exact (hstreams id).of_isPrefix (List.take_prefix n _)

omit [DecidableEq Id] in
theorem snapshots_none (store : Store Id P) : Snapshots d store (fun _ => none) := by
  intro id v hv
  cases hv

/-- A start that has brought up what is listed leaves nothing of Redis. -/
theorem Process.broughtUp_eq_recovered {store : Store Id P} {redis : RedisHash Id S}
    {ids : List Id} (hredis : ∀ id v, redis id = some v → id ∈ store.ids)
    (hids : ids ⊆ store.ids) (hall : store.ids ⊆ ids) :
    Process.broughtUp d store redis ids = Process.recovered d store := by
  have hview : (fun id => if id ∈ ids then some (viewOf d 0 (store.aggregate id)) else redis id) =
      fun id => if id ∈ store.ids then some (viewOf d 0 (store.aggregate id)) else none := by
    funext id
    by_cases hid : id ∈ ids
    · rw [if_pos hid, if_pos (hids hid)]
    · have hnot : id ∉ store.ids := fun hmem => hid (hall hmem)
      rw [if_neg hid, if_neg hnot]
      cases hv : redis id with
      | none => rfl
      | some v => exact absurd (hredis id v hv) hnot
  simp only [Process.recovered, Process.broughtUp, hview]

theorem Process.recovered_memory {store : Store Id P} {a : Aggregate Id S P}
    (ha : (Process.recovered d store).memory id = some a) :
    id ∈ store.ids ∧ a = built d id 0 (store.aggregate id) [] := by
  rcases Process.broughtUp_memory (snapshots_none store) ha with hup | ⟨hsome, -⟩
  · exact hup
  · cases hsome

theorem Process.recovered_listed {store : Store Id P}
    (hstored : ∀ id ∈ store.ids, store.aggregate id ≠ []) :
    (Process.recovered d store).Listed d :=
  Process.broughtUp_listed hstored (snapshots_none store) (fun _ _ hv => by cases hv)
    (List.Subset.refl _)

theorem Process.recovered_sound {store : Store Id P}
    (hstreams : ∀ id, History id (store.aggregate id))
    (hstored : ∀ id ∈ store.ids, store.aggregate id ≠ []) :
    (Process.recovered d store).Sound d :=
  Process.broughtUp_sound hstreams hstored (snapshots_none store) (List.Subset.refl _)

end Listed

-- ============================================================================
-- Lives
-- ============================================================================

section Lives

variable [DecidableEq Id] {d : TotalDomain Id S P} {T : String} {p p' : Process Id S P}
  {id : Id}

/-- **A start that comes up** has brought up some of what `T-Ids` lists, and all of it when its
    tasks have ended. -/
theorem Process.life_restart (hsound : p.Sound d) (hlisted : p.Listed d)
    {shardKey : Nat → Int32} {turns : List UpdateLabel}
    (hshort : ∀ id, (p.store.aggregate id).length < 2 ^ 31 - 1)
    (hstep : p.life d.domain T (.restart shardKey turns) = some p') :
    (∃ ids ⊆ p.store.ids, p' = Process.broughtUp d p.store p.redis ids) ∧
      (p.Awaits d.domain shardKey turns → p' = Process.recovered d p.store) := by
  simp only [Process.life, Option.bind_eq_some_iff] at hstep
  obtain ⟨u, hrun, hcache⟩ := hstep
  have hok : u.failed = false := by
    by_contra hfailed
    rw [initializeCache, if_pos (by simpa using hfailed)] at hcache
    cases hcache
  have h := (underway_start shardKey hlisted.snapshots).run hsound.streams hshort hrun hok
  obtain ⟨ids, hids, hup, hall⟩ := h.initializes hlisted.stored
  obtain rfl := Option.some.inj (hcache.symm.trans hup)
  exact ⟨⟨ids, hids, rfl⟩, fun hawaits =>
    Process.broughtUp_eq_recovered hlisted.redis hids (hall (hawaits u hrun))⟩

/-- Some start comes up with everything. -/
theorem Process.exists_restart (hsound : p.Sound d) (hlisted : p.Listed d)
    (hshort : ∀ id, (p.store.aggregate id).length < 2 ^ 31 - 1) (shardKey : Nat → Int32) :
    ∃ turns, p.Awaits d.domain shardKey turns ∧
      p.life d.domain T (.restart shardKey turns) = some (Process.recovered d p.store) := by
  obtain ⟨turns, u, hrun, hok, hdone⟩ :=
    Underway.completes hlisted.snapshots shardKey hsound.streams hshort
  have h := (underway_start shardKey hlisted.snapshots).run hsound.streams hshort hrun hok
  obtain ⟨ids, hids, hup, hall⟩ := h.initializes hlisted.stored
  rw [Process.broughtUp_eq_recovered hlisted.redis hids (hall hdone)] at hup
  refine ⟨turns, fun u' hrun' => ?_, ?_⟩
  · obtain rfl := Option.some.inj (hrun.symm.trans hrun')
    exact hdone
  · simp only [Process.life, hrun, Option.bind_some]
    exact hup

/-- A step of a service keeps all of this, and only a request that loses an aggregate leaves
    it unlisted. -/
theorem Process.life_keeps (hsound : p.Sound d) (hlisted : p.Listed d) {l : LifeLabel Id P}
    (hrange : l.InRange p) (hstep : p.life d.domain T l = some p') :
    p'.Sound d ∧ p'.Listed d ∧ ∀ id, p'.Unlisted id ↔ p.Unlisted id ∨ l.Loses id := by
  cases l with
  | request r =>
      exact ⟨hsound.step hrange.1 hrange.2 hstep,
        hlisted.step hsound hrange.1 hrange.2 hstep,
        fun _ => hlisted.step_unlisted hsound hrange.1 hrange.2 hstep⟩
  | restart shardKey turns =>
      obtain ⟨⟨ids, hids, rfl⟩, -⟩ := Process.life_restart hsound hlisted hrange hstep
      exact ⟨Process.broughtUp_sound hsound.streams hlisted.stored hlisted.snapshots hids,
        Process.broughtUp_listed hlisted.stored hlisted.snapshots hlisted.redis hids,
        fun _ => (or_iff_left fun hloses => hloses).symm⟩

/-- Over a whole life. -/
theorem Process.life_run (hsound : p.Sound d) (hlisted : p.Listed d) {ls : List (LifeLabel Id P)}
    (hrange : Transition.Along (Process.life d.domain T) LifeLabel.InRange p ls)
    (hrun : Transition.run (Process.life d.domain T) p ls = some p') :
    p'.Sound d ∧ p'.Listed d :=
  Transition.run_invariant_along (I := fun p => Process.Sound p d ∧ Process.Listed p d)
    (fun _ _ _ h hrange hstep =>
      have hkept := Process.life_keeps h.1 h.2 hrange hstep
      ⟨hkept.1, hkept.2.1⟩) ⟨hsound, hlisted⟩ hrange hrun

/-- What is unlisted after a life was so before or was lost in it. -/
theorem Process.run_unlisted_iff (hsound : p.Sound d) (hlisted : p.Listed d)
    {ls : List (LifeLabel Id P)}
    (hrange : Transition.Along (Process.life d.domain T) LifeLabel.InRange p ls)
    (hrun : Transition.run (Process.life d.domain T) p ls = some p') :
    p'.Unlisted id ↔ p.Unlisted id ∨ ∃ l ∈ ls, l.Loses id := by
  induction ls generalizing p with
  | nil =>
      cases hrun
      simp
  | cons l ls ih =>
      obtain ⟨q, hq, hrun⟩ := Transition.run_cons_eq_some.mp hrun
      obtain ⟨hinrange, hrest⟩ := (Transition.along_cons hq).mp hrange
      obtain ⟨hsound', hlisted', hstep⟩ := Process.life_keeps hsound hlisted hinrange hq
      rw [ih hsound' hlisted' hrest hrun, hstep id, or_assoc]
      simp only [List.mem_cons, exists_eq_or_imp]

/-- What is stored and not listed stays so, and out of memory. -/
theorem Process.run_unlisted (hsound : p.Sound d) (hlisted : p.Listed d) (hnot : p.Unlisted id)
    {ls : List (LifeLabel Id P)}
    (hrange : Transition.Along (Process.life d.domain T) LifeLabel.InRange p ls)
    (hrun : Transition.run (Process.life d.domain T) p ls = some p') : p'.get id = none := by
  have hunlisted := (Process.run_unlisted_iff hsound hlisted hrange hrun).mpr (Or.inl hnot)
  cases hget : p'.get id with
  | none => rfl
  | some a =>
      have hlisted' := (Process.life_run hsound hlisted hrange hrun).2
      exact absurd (hlisted'.memory id a hget) hunlisted.2

/-- **A start makes the cache whole.** Whatever the service has gone through, starts that took
    their list too early included, a start that comes up after all its tasks have ended has
    every aggregate that `T-Ids` lists and no other; each is the replay of its whole stream, as
    its snapshot in Redis is; none is frozen; and a change of any of them returns again unless
    one of the calls in its save throws. -/
theorem restart_recovers {store : Store Id P} {ls : List (LifeLabel Id P)}
    {shardKey : Nat → Int32} {turns : List UpdateLabel}
    (hstreams : ∀ id, History id (store.aggregate id))
    (hstored : ∀ id ∈ store.ids, store.aggregate id ≠ [])
    (hrange : Transition.Along (Process.life d.domain T) LifeLabel.InRange
      (Process.recovered d store) ls)
    (hrun : Transition.run (Process.life d.domain T) (Process.recovered d store) ls = some p)
    (hshort : ∀ id, (p.store.aggregate id).length < 2 ^ 31 - 1)
    (hawaits : p.Awaits d.domain shardKey turns)
    (hstart : p.life d.domain T (.restart shardKey turns) = some p') :
    (∀ id, p'.get id = none ↔ id ∉ p.store.ids) ∧
    (∀ id a, p'.get id = some a → a.changes = [] ∧ p'.redis id = some a.view ∧
      ∀ sk, ∃ r, (Aggregate.new d.domain id sk).applyEvents d.domain (p.store.aggregate id) =
        .returned r ∧ a.view = r.view) ∧
    (∀ id, ¬ p'.Frozen id) ∧
    ∀ id ∈ p.store.ids, ∀ events fails drop,
      p'.returns d.domain T (.change id events fails drop) = true ↔
        Stores fails ∧ Finishes fails events := by
  obtain ⟨hsound, hlisted⟩ := Process.life_run (Process.recovered_sound hstreams hstored)
    (Process.recovered_listed hstored) hrange hrun
  obtain rfl := (Process.life_restart hsound hlisted hshort hstart).2 hawaits
  have hcached : ∀ id ∈ p.store.ids, (Process.recovered d p.store).memory id =
      some (built d id 0 (p.store.aggregate id) []) := by
    intro id hid
    simp only [Process.recovered, Process.broughtUp, populateCache, if_pos hid, Option.map_some,
      ofSnapshot_viewOf]
  have hby : ∀ id, CachedBy d (Process.recovered d p.store).store id
      (built d id 0 (p.store.aggregate id) []) 0 (p.store.aggregate id) [] [] := by
    intro id
    refine ⟨rfl, (List.append_nil _).symm, ?_⟩
    rw [List.append_nil]
    exact hsound.streams id
  refine ⟨fun id => ⟨fun hnone hid => ?_, fun hnot => ?_⟩, fun id a ha => ?_, fun id hfrozen => ?_,
    fun id hid events fails drop => ?_⟩
  · have hnone : (Process.recovered d p.store).memory id = none := hnone
    rw [hcached id hid] at hnone
    cases hnone
  · show (Process.recovered d p.store).memory id = none
    simp only [Process.recovered, Process.broughtUp, populateCache, if_neg hnot, Option.map_none]
  · obtain ⟨hid, rfl⟩ := Process.recovered_memory ha
    refine ⟨built_changes .., ?_, fun sk => ⟨_, applyEvents_new d sk (hsound.streams id), ?_⟩⟩
    · simp only [Process.recovered, Process.broughtUp, if_pos hid, built_view, List.append_nil]
    · rw [built_view, built_view, List.nil_append, List.append_nil]
      exact viewOf_eq_of_ne_nil d (hlisted.stored id hid) 0 sk
  · obtain ⟨a, ha, hlt⟩ := hfrozen
    obtain ⟨hid, rfl⟩ := Process.recovered_memory ha
    exact absurd rfl (((hby id).frozen_iff ha (hshort id)).mp ⟨_, ha, hlt⟩)
  · obtain ⟨raised, a', htypes, hraise, hby'⟩ := (hby id).raiseAll events
    have hreturns : (Process.recovered d p.store).returns d.domain T
        (.change id events fails drop) = (Process.recovered d p.store).saves T drop fails a' := by
      simp only [Process.returns, Process.get, hcached id hid, hraise]
    rw [hreturns, hby'.saves_iff (hshort id), List.nil_append, lateFailure_iff htypes]
    exact ⟨fun h => ⟨h.2.1, h.2.2⟩, fun h => ⟨rfl, h.1, h.2⟩⟩

end Lives

section Users

open Milde.UserManagement

/-- Before the first request of a new installation. -/
def firstStart : Process Nat UserState UserEvent := Process.recovered userDomain Store.empty

/-- A user is created, and the append to `User-Ids` throws when its age is changed. -/
def failsOnce : List (LifeLabel Nat UserEvent) :=
  failsAfterAppend.map .request

/-- The append to `User-Ids` throws when a user is created. -/
def failsAtOnce : List (LifeLabel Nat UserEvent) := [.request (createUser fun c => c = .ids)]

def livedThrough (ls : List (LifeLabel Nat UserEvent)) : Process Nat UserState UserEvent :=
  (Transition.run (Process.life userDomain.domain "User") firstStart ls).getD firstStart

theorem stored_noUsers : ∀ id ∈ (Store.empty : Store Nat UserEvent).ids,
    (Store.empty : Store Nat UserEvent).aggregate id ≠ [] := by
  intro id hid
  cases hid

theorem inRange_createUser (fails : SaveCall → Bool) :
    (LifeLabel.request (createUser fails)).InRange firstStart := by
  refine ⟨fun id => ?_, by simp [createUser, Request.Begins]⟩
  show 0 + 1 < _
  decide

theorem inRange_failsOnce : Transition.Along (Process.life userDomain.domain "User")
    LifeLabel.InRange firstStart failsOnce := by
  refine (Transition.along_cons rfl).mpr ⟨inRange_createUser _,
    (Transition.along_cons rfl).mpr ⟨⟨fun id => ?_, trivial⟩, trivial⟩⟩
  by_cases hid : id = 7
  · subst hid
    decide
  · show (Function.update (fun _ => []) 7 _ id).length + 1 < _
    rw [Function.update_of_ne hid]
    decide

theorem short_failsOnce (id : Nat) :
    ((livedThrough failsOnce).store.aggregate id).length < 2 ^ 31 - 1 := by
  by_cases hid : id = 7
  · subst hid
    decide
  · show (Function.update (Function.update (fun _ => []) 7 _) 7 _ id).length < _
    rw [Function.update_of_ne hid, Function.update_of_ne hid]
    decide

/-- The user is frozen, and a start thaws it. -/
theorem restart_recovers_failsOnce : (livedThrough failsOnce).Frozen 7 ∧
    ∃ turns p, (livedThrough failsOnce).life userDomain.domain "User"
        (.restart (fun _ => 0) turns) = some p ∧ ¬ p.Frozen 7 ∧
      p.returns userDomain.domain "User" (changeUserAge fun _ => false) = true := by
  have hrun : Transition.run (Process.life userDomain.domain "User") firstStart failsOnce =
      some (livedThrough failsOnce) := rfl
  obtain ⟨hsound, hlisted⟩ := Process.life_run
    (Process.recovered_sound history_noUsers stored_noUsers)
    (Process.recovered_listed stored_noUsers) inRange_failsOnce hrun
  obtain ⟨turns, hawaits, hstart⟩ :=
    Process.exists_restart (T := "User") hsound hlisted short_failsOnce fun _ => 0
  obtain ⟨-, -, hthawed, hreturns⟩ := restart_recovers history_noUsers stored_noUsers
    inRange_failsOnce hrun short_failsOnce hawaits hstart
  refine ⟨⟨_, rfl, by decide⟩, turns, _, hstart, hthawed 7, (hreturns 7 ?_ _ _ _).mpr ?_⟩
  · exact List.mem_singleton_self 7
  · exact ⟨⟨rfl, rfl⟩, rfl, fun _ _ => rfl, rfl⟩

end Users

end Milde.AggregateCache
