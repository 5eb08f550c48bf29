/-
  Milde.AggregateCache.CrashRecovery

  What `AggregateCache.Initialize` finds after the processes have stopped somewhere in
  their saves.

  A run is one of the processes (`step`) together with the second half of
  `AggregateRepository.Save`: when a `SaveAggregate` has ended, the snapshot of its object
  is sent to Redis, where it takes effect later or never.  The processes may stop in any
  state, since a run may leave any object alone for ever.  Recovery finds the aggregates
  by `T-Ids` and the Redis hash, and both are written after `T-{id}`
  (`allVisible_iff_listed`).
-/
import Milde.AggregateCache.ReturnedList
import Milde.EventStore.Acceptance

namespace Milde.AggregateCache

open Milde.EventSourcing Milde.EventStore

variable {Id S P : Type}

/-- The processes, the snapshots on their way to Redis, and the hash. -/
structure Saves (Id S P : Type) where
  world : World Id S P
  sent : List (Id × View S)
  redis : RedisHash Id S

inductive SavesLabel (Id P : Type) where
  | process (l : Label Id P)
  | redis (i : Nat)
deriving DecidableEq, Repr

def Saves.init : Saves Id S P := ⟨World.init, [], fun _ => none⟩

variable [DecidableEq Id]

/-- The object whose `SaveAggregate` the step brings to its end. -/
def savedBy (T : String) (w : World Id S P) : Label Id P → Option (Aggregate Id S P)
  | .complete o .none drop =>
      match w.objects[o]? with
      | some ⟨a, some call, _⟩ =>
          match resume T drop w.store a call with
          | some (_, a', none) => some a'
          | _ => none
      | _ => none
  | _ => none

/-- A step of a process, or a snapshot takes effect. -/
def savesStep (d : Domain Id S P) (T : String) (s : Saves Id S P) :
    SavesLabel Id P → Option (Saves Id S P)
  | .process l =>
      (EventStore.step d T s.world l).map fun world =>
        { s with world, sent := s.sent ++ (savedBy T s.world l).toList.map fun a => (a.id, a.view) }
  | .redis i =>
      (s.sent[i]?).map fun (id, v) =>
        { s with sent := s.sent.eraseIdx i, redis := Function.update s.redis id (some v) }

/-- However `Initialize` runs after a restart, once all its reads are finished the cache has
    every aggregate with stored events, as the replay of its stream. -/
def AllVisible (d : Domain Id S P) (store : Store Id P) (redis : RedisHash Id S) : Prop :=
  ∀ shardKey ls u p, Transition.run (updateStep d store redis)
      (Update.start d store redis shardKey) ls = some u → Stuck d store redis u →
    initializeCache store redis u = some p → ∀ id, store.aggregate id ≠ [] →
      ∃ a, p.get id = some a ∧ ∀ shardKey, ∃ r,
        (Aggregate.new d id shardKey).applyEvents d (store.aggregate id) = .returned r ∧
          a.view = r.view

/-- The event of a command is applied without a throw. -/
def SavesAccepting (d : Domain Id S P) (s : Saves Id S P) : SavesLabel Id P → Prop
  | .process l => Accepting d s.world l
  | .redis _ => True

/-- `T-Ids` lists every aggregate with stored events. -/
def Listed (store : Store Id P) : Prop := ∀ id, store.aggregate id ≠ [] → id ∈ store.ids

-- ============================================================================
-- What completed saves have written to Redis
-- ============================================================================

/-- The snapshot of an earlier state of a listed aggregate. -/
structure Written (d : TotalDomain Id S P) (store : Store Id P) (id : Id) (v : View S) : Prop where
  listed : id ∈ store.ids
  earlier : ∃ sk evs, evs <+: store.aggregate id ∧ v = viewOf d sk evs

/-- A save that publishes has listed its aggregate. -/
def PublishListed (w : World Id S P) : Prop :=
  ∀ obj ∈ w.objects, ∀ t events rest, obj.saving = some (.bus t events rest) →
    obj.agg.id ∈ w.store.ids

structure Saves.Inv (d : TotalDomain Id S P) (s : Saves Id S P) : Prop where
  world : EventStore.Inv d s.world
  publishing : PublishListed s.world
  sent : ∀ p ∈ s.sent, Written d s.world.store p.1 p.2
  redis : ∀ id v, s.redis id = some v → Written d s.world.store id v

section Written

variable {d : TotalDomain Id S P} {T : String} {store store' : Store Id P} {a a' : Aggregate Id S P}
  {call : Awaiting Id P} {next : Option (Awaiting Id P)} {drop : Bool}

omit [DecidableEq Id] in
theorem Written.mono {id : Id} {v : View S} (h : Written d store id v)
    (hext : Extends store store') (hids : store.ids ⊆ store'.ids) : Written d store' id v := by
  obtain ⟨hlisted, sk, evs, hevs, hv⟩ := h
  exact ⟨hids hlisted, sk, evs, hevs.trans (hext.aggregate id), hv⟩

theorem resume_ids_subset (h : resume T drop store a call = some (store', a', next)) :
    store.ids ⊆ store'.ids := by
  cases call with
  | category events =>
      cases h
      exact List.Subset.refl _
  | aggregate events version =>
      obtain ⟨_, -, rfl, rfl, rfl⟩ := resume_aggregate h
      exact List.Subset.refl _
  | ids =>
      obtain ⟨rfl, -⟩ := resume_ids h
      exact fun id hid => (Store.mem_appendId_ids ..).mpr (Or.inl hid)
  | bus t events rest =>
      obtain ⟨rfl, -⟩ := resume_bus h
      exact List.Subset.refl _

/-- A save that gets to the event bus has listed its aggregate. -/
theorem resume_listed (hpublishing : ∀ t events rest, call = .bus t events rest → a.id ∈ store.ids)
    (h : resume T drop store a call = some (store', a', next))
    (hlate : next = none ∨ ∃ t events rest, next = some (.bus t events rest)) :
    a.id ∈ store'.ids := by
  cases call with
  | category events =>
      cases h
      simp at hlate
  | aggregate events version =>
      obtain ⟨_, -, rfl, rfl, rfl⟩ := resume_aggregate h
      simp at hlate
  | ids =>
      obtain ⟨rfl, -⟩ := resume_ids h
      exact (Store.mem_appendId_ids ..).mpr (Or.inr rfl)
  | bus t events rest => exact resume_ids_subset h (hpublishing t events rest rfl)

/-- A save that ends leaves its batch in the stream, and the object shows the batch. -/
theorem Tracks.saved {views : List (View S)} {sk : Int32} {loaded : List (AggregateEvent Id P)}
    (ht : Tracks d store ⟨a, some call, views⟩ sk loaded)
    (hpublishing : ∀ t events rest, call = .bus t events rest → a.id ∈ store.ids)
    (h : resume T drop store a call = some (store', a', none)) :
    Written d store' a'.id a'.view := by
  have hstored : loaded ++ a.changes <+: store.aggregate a.id := by
    have hfits := ht.saving call rfl
    cases call with
    | category events => cases h
    | aggregate events version =>
        obtain ⟨_, -, -, -, hnext⟩ := resume_aggregate h
        cases hnext
    | ids => exact hfits
    | bus t events rest => exact hfits
  have hlisted := resume_listed hpublishing h (Or.inl rfl)
  have hview : a.view = viewOf d sk (loaded ++ a.changes) := by
    have hobj : a = built d a.id sk loaded a.changes := ht.object
    rw [← built_view d a.id, ← hobj]
  rcases resume_agg h with ⟨-, hnext⟩ | ⟨heq, -⟩
  · exact absurd rfl hnext
  · rw [heq]
    exact ⟨hlisted, sk, _, hstored.trans ((resume_extends h).aggregate a.id), hview⟩

end Written

section Steps

variable {d : TotalDomain Id S P} {T : String} {s s' : Saves Id S P}

theorem saves_inv_init : Saves.Inv d (Saves.init : Saves Id S P) where
  world := inv_init
  publishing _ hobj := absurd hobj List.not_mem_nil
  sent _ hp := absurd hp List.not_mem_nil
  redis := by
    intro id v h
    cases h

end Steps

section Worlds

variable {d : TotalDomain Id S P} {T : String} {w w' : World Id S P}

theorem step_ids {l : Label Id P} (hstep : EventStore.step d.domain T w l = some w') :
    w.store.ids ⊆ w'.store.ids := by
  rcases step_cases hstep with ⟨_, _, -, rfl⟩ | ⟨_, _, _, _, -, -, rfl⟩ |
    ⟨_, _, _, _, _, _, -, -, -, rfl⟩ | ⟨_, _, _, _, -, -, rfl⟩ |
    ⟨_, _, _, _, _, -, -, ⟨_, -, rfl⟩ | ⟨_, -, rfl⟩⟩ | ⟨_, _, _, -, -, rfl⟩ |
    ⟨o, fault, drop, a, call, views, -, -, rfl⟩
  on_goal 8 =>
    rcases completeCall_cases T w o ⟨a, some call, views⟩ call fault drop with
      ⟨heq, -⟩ | ⟨store, a', next, hr, ⟨-, heq⟩ | ⟨-, heq⟩⟩ <;> rw [heq]
    · exact List.Subset.refl _
    · exact resume_ids_subset hr
    · exact resume_ids_subset hr
  all_goals exact List.Subset.refl _

omit [DecidableEq Id] in
/-- An object that joins does not publish. -/
theorem PublishListed.addObject (h : PublishListed w) (a : Aggregate Id S P)
    (views : List (View S)) : PublishListed (w.addObject a views) := by
  intro obj hobj t events rest hsaving
  rcases List.mem_append.mp hobj with hobj | hobj
  · exact h obj hobj t events rest hsaving
  · rw [List.mem_singleton.mp hobj] at hsaving
    cases hsaving

omit [DecidableEq Id] in
/-- One object changes and the store grows. -/
theorem PublishListed.setObject (h : PublishListed w) {store : Store Id P}
    {commits : List (Commit Id S P)} {o : Nat} {obj : Obj Id S P} (hids : w.store.ids ⊆ store.ids)
    (hobj : ∀ t events rest, obj.saving = some (.bus t events rest) → obj.agg.id ∈ store.ids) :
    PublishListed { store, objects := w.objects.set o obj, commits } := by
  intro obj' hobj' t events rest hsaving
  rcases List.mem_or_eq_of_mem_set hobj' with hmem | rfl
  · exact hids (h obj' hmem t events rest hsaving)
  · exact hobj t events rest hsaving

theorem PublishListed.step (h : PublishListed w) {l : Label Id P}
    (hstep : EventStore.step d.domain T w l = some w') : PublishListed w' := by
  have hrefl := List.Subset.refl w.store.ids
  have hidle : ∀ {a : Aggregate Id S P} {views : List (View S)} {ids : List Id} t events rest,
      (⟨a, none, views⟩ : Obj Id S P).saving = some (.bus t events rest) → a.id ∈ ids := by
    intro a views ids t events rest hsaving
    cases hsaving
  rcases step_cases hstep with ⟨_, _, -, rfl⟩ | ⟨_, _, _, _, -, -, rfl⟩ |
    ⟨_, _, _, _, _, _, -, -, -, rfl⟩ | ⟨_, _, _, _, -, -, rfl⟩ |
    ⟨_, _, _, _, _, -, -, ⟨_, -, rfl⟩ | ⟨_, -, rfl⟩⟩ | ⟨_, _, _, -, -, rfl⟩ |
    ⟨o, fault, drop, a, call, views, -, ho, rfl⟩
  · exact h.addObject _ _
  · exact h.addObject _ _
  · exact h.addObject _ _
  · exact h.addObject _ _
  · exact h.setObject hrefl hidle
  · exact h.setObject hrefl hidle
  · exact h.setObject hrefl fun _ _ _ hsaving => by cases hsaving
  · have hpublishing : ∀ t events rest, call = .bus t events rest → a.id ∈ w.store.ids :=
      fun t events rest hcall =>
        h _ (List.mem_of_getElem? ho) t events rest (congrArg some hcall)
    rcases completeCall_cases T w o ⟨a, some call, views⟩ call fault drop with
      ⟨heq, -⟩ | ⟨store, a', next, hr, ⟨-, heq⟩ | ⟨-, heq⟩⟩ <;> rw [heq]
    · exact h.setObject hrefl hidle
    · exact h.setObject (resume_ids_subset hr) hidle
    · apply h.setObject (resume_ids_subset hr)
      intro t events rest hsaving
      have hid : a'.id = a.id := by
        rcases resume_agg hr with ⟨rfl, -⟩ | ⟨rfl, -⟩ <;> rfl
      show a'.id ∈ store.ids
      rw [hid]
      exact resume_listed hpublishing hr (Or.inr ⟨t, events, rest, hsaving⟩)

/-- A save comes to its end when its last call succeeds. -/
theorem savedBy_eq_some {l : Label Id P} {b : Aggregate Id S P} (h : savedBy T w l = some b) :
    ∃ o drop a call views store, l = .complete o .none drop ∧
      w.objects[o]? = some ⟨a, some call, views⟩ ∧
      resume T drop w.store a call = some (store, b, none) := by
  unfold savedBy at h
  split at h
  · rename_i o drop
    split at h
    · rename_i a call views ho
      split at h
      · rename_i store b' hr
        obtain rfl := Option.some.inj h
        exact ⟨o, drop, a, call, views, store, rfl, ho, hr⟩
      · cases h
    · cases h
  · cases h

/-- What a save that ends sends to Redis. -/
theorem written_savedBy (hinv : EventStore.Inv d w) (h : PublishListed w) {l : Label Id P}
    {b : Aggregate Id S P} (hb : savedBy T w l = some b)
    (hstep : EventStore.step d.domain T w l = some w') : Written d w'.store b.id b.view := by
  obtain ⟨o, drop, a, call, views, store, rfl, ho, hr⟩ := savedBy_eq_some hb
  obtain ⟨sk, loaded, ht⟩ := hinv.objects _ (List.mem_of_getElem? ho)
  rw [step_complete ho] at hstep
  obtain rfl := Option.some.inj hstep
  simp only [World.completeCall, hr]
  exact Tracks.saved ht (fun t events rest hcall =>
    h _ (List.mem_of_getElem? ho) t events rest (congrArg some hcall)) hr

end Worlds

section Runs

variable {d : TotalDomain Id S P} {T : String} {s s' : Saves Id S P}

/-- Every step keeps what Redis has in line with the store. -/
theorem Saves.Inv.step (h : s.Inv d) (hshort : Short T s.world.store) {l : SavesLabel Id P}
    (hstep : savesStep d.domain T s l = some s') : s'.Inv d := by
  cases l with
  | process l =>
      simp only [savesStep, Option.map_eq_some_iff] at hstep
      obtain ⟨w, hw, rfl⟩ := hstep
      refine ⟨h.world.step hshort hw, h.publishing.step hw, fun p hp => ?_, fun id v hv => ?_⟩
      · rcases List.mem_append.mp hp with hp | hp
        · exact (h.sent p hp).mono (step_extends hw) (step_ids hw)
        · obtain ⟨b, hb, rfl⟩ := List.mem_map.mp hp
          exact written_savedBy h.world h.publishing (by simpa using hb) hw
      · exact (h.redis id v hv).mono (step_extends hw) (step_ids hw)
  | redis i =>
      simp only [savesStep, Option.map_eq_some_iff] at hstep
      obtain ⟨⟨id, v⟩, hi, rfl⟩ := hstep
      refine ⟨h.world, h.publishing, fun p hp => h.sent p (List.mem_of_mem_eraseIdx hp), ?_⟩
      intro id' v' hv'
      dsimp only at hv'
      by_cases heq : id' = id
      · subst heq
        rw [Function.update_self] at hv'
        obtain rfl := Option.some.inj hv'
        exact h.sent _ (List.mem_of_getElem? hi)
      · rw [Function.update_of_ne heq] at hv'
        exact h.redis id' v' hv'

theorem savesStep_extends {d : Domain Id S P} {l : SavesLabel Id P}
    (hstep : savesStep d T s l = some s') : Extends s.world.store s'.world.store := by
  cases l with
  | process l =>
      simp only [savesStep, Option.map_eq_some_iff] at hstep
      obtain ⟨w, hw, rfl⟩ := hstep
      exact step_extends hw
  | redis i =>
      simp only [savesStep, Option.map_eq_some_iff] at hstep
      obtain ⟨_, -, rfl⟩ := hstep
      exact Extends.refl _

theorem savesStep_total {d : Domain Id S P} (hinv : EventStore.Inv d.total s.world)
    (hshort : Short T s.world.store) {l : SavesLabel Id P} (hl : SavesAccepting d s l)
    (hstep : savesStep d T s l = some s') : savesStep d.total.domain T s l = some s' := by
  cases l with
  | process l =>
      simp only [savesStep, Option.map_eq_some_iff] at hstep ⊢
      obtain ⟨w, hw, hs'⟩ := hstep
      exact ⟨w, step_total hinv hshort hl hw, hs'⟩
  | redis i => exact hstep

theorem acceptedWorld_savesStep {d : Domain Id S P} (h : AcceptedWorld d s.world)
    (hinv : EventStore.Inv d.total s.world) (hshort : Short T s.world.store)
    {l : SavesLabel Id P} (hl : SavesAccepting d s l) (hstep : savesStep d T s l = some s') :
    AcceptedWorld d s'.world := by
  cases l with
  | process l =>
      simp only [savesStep, Option.map_eq_some_iff] at hstep
      obtain ⟨w, hw, rfl⟩ := hstep
      exact h.step hinv hshort hl hw
  | redis i =>
      simp only [savesStep, Option.map_eq_some_iff] at hstep
      obtain ⟨_, -, rfl⟩ := hstep
      exact h

/-- The invariants hold at the end of every run without a throw that leaves short streams. -/
theorem saves_inv_run {d : Domain Id S P} {ls : List (SavesLabel Id P)}
    (hrun : Transition.run (savesStep d T) Saves.init ls = some s)
    (haccepting : Transition.Along (savesStep d T) (SavesAccepting d) Saves.init ls)
    (hshort : Short T s.world.store) : s.Inv d.total ∧ AcceptedWorld d s.world := by
  refine Transition.run_invariant_along
    (I := fun s => Short T s.world.store → s.Inv d.total ∧ AcceptedWorld d s.world) ?_
    (fun _ => ⟨saves_inv_init, acceptedWorld_init d⟩) haccepting hrun hshort
  intro s l s' hs hl hstep hshort
  have hshort' := hshort.of_extends (savesStep_extends hstep)
  obtain ⟨hinv, haccepted⟩ := hs hshort'
  exact ⟨hinv.step hshort' (savesStep_total hinv.world hshort' hl hstep),
    acceptedWorld_savesStep haccepted hinv.world hshort' hl hstep⟩

end Runs

-- ============================================================================
-- Recovery
-- ============================================================================

section Recovery

variable {d : Domain Id S P} {store : Store Id P} {redis : RedisHash Id S}
  {shardKey : Nat → Int32} {u : Update Id S P}

omit [DecidableEq Id] in
theorem objectOf_id (d : Domain Id S P) (redis : RedisHash Id S) (shardKey : Nat → Int32)
    (r : Ref Id) : (objectOf d redis shardKey r).id = r.aggregateId := by
  cases r with
  | existing id => rfl
  | own k id => rfl

omit [DecidableEq Id] in
/-- Every task begins with an earlier state of its aggregate. -/
theorem builds_objectOf (shardKey : Nat → Int32)
    (hredis : ∀ id v, redis id = some v → Written d.total store id v) (k : Nat) (id : Id) :
    ∃ evs, Builds d.total id (objectOf d redis shardKey (refOf redis k id)) evs ∧
      evs <+: store.aggregate id := by
  unfold refOf
  split
  · rename_i hsome
    obtain ⟨v, hv⟩ := Option.isSome_iff_exists.mp hsome
    obtain ⟨-, sk, evs, hevs, rfl⟩ := hredis id v hv
    refine ⟨evs, ?_, hevs⟩
    simp only [objectOf, hv, Option.getD_some]
    exact builds_ofSnapshot d.total id sk evs
  · exact ⟨[], builds_new d.total id (shardKey k), List.nil_prefix⟩

/-- One task after the other: no exception escapes, and all come to their end. -/
theorem exists_complete (shardKey : Nat → Int32)
    (hredis : ∀ id v, redis id = some v → Written d.total store id v)
    (hstreams : ∀ id, History id (store.aggregate id))
    (hshort : ∀ id, (store.aggregate id).length < 2 ^ 31 - 1)
    (haccepts : ∀ id, d.Accepts d.init (store.aggregate id)) (n : Nat) (hn : n ≤ store.ids.length) :
    ∃ ls u, Transition.run (updateStep d store redis)
        (Update.start d store redis shardKey) ls = some u ∧ u.failed = false ∧
      u.tasks = List.replicate n .finished ++ List.replicate (store.ids.length - n) .waiting ∧
      ∀ (k : Nat) (id : Id), store.ids[k]? = some id → ∃ evs,
        Builds d.total id (u.objects (refOf redis k id)) evs ∧ evs <+: store.aggregate id := by
  induction n with
  | zero =>
      refine ⟨[], _, rfl, rfl, ?_, fun k id _ => builds_objectOf shardKey hredis k id⟩
      simp [Update.start]
  | succ n ih =>
      obtain ⟨ls, u, hrun, hok, htasks, hobjects⟩ := ih (Nat.le_of_succ_le hn)
      have hid := List.getElem?_eq_getElem hn
      generalize store.ids[n] = id at hid
      obtain ⟨evs, hevs, tail, hstream⟩ := hobjects n id hid
      have hhist : History id (evs ++ tail) := by
        rw [hstream]
        exact hstreams id
      have htask : u.tasks[n]? = some .waiting := by
        rw [htasks, List.getElem?_append_right (by simp)]
        simp only [List.length_replicate, Nat.sub_self, List.getElem?_replicate]
        rw [if_pos (by omega)]
      have hlt := (List.getElem?_eq_some_iff.mp htask).1
      -- the task reads, applies all it has read, and ends
      have hstart := step_start hok hid htask hevs hstream (hstreams id) (hshort id)
      have hset : (u.tasks.set n (.applying tail))[n]? = some (.applying (tail ++ [])) := by
        rw [List.append_nil]
        exact List.getElem?_set_self hlt
      obtain ⟨u₁, hrun₁, hok₁, htasks₁, hframe, hevs₁⟩ := run_proceed
        (u := { u with tasks := u.tasks.set n (.applying tail) }) hok hid hset hevs hhist
        (by rw [hstream]; exact haccepts id)
      rw [List.set_set] at htasks₁
      have hend : updateStep d store redis u₁ (.proceed n) = some { u₁ with
          tasks := u₁.tasks.set n .finished
          added := u₁.added ++ [refOf redis n id] } := by
        have htask₁ : u₁.tasks[n]? = some (.applying []) := by
          rw [htasks₁]
          exact List.getElem?_set_self hlt
        simp only [updateStep, hok₁, htask₁, hid]
      refine ⟨ls ++ (.start n :: (List.replicate tail.length (.proceed n) ++ [.proceed n])),
        { u₁ with tasks := u₁.tasks.set n .finished, added := u₁.added ++ [refOf redis n id] },
        Transition.run_trans hrun (Transition.run_cons_eq_some.mpr ⟨_, hstart,
          Transition.run_trans hrun₁ (Transition.run_single hend)⟩), hok₁, ?_, ?_⟩
      · show u₁.tasks.set n .finished = _
        rw [htasks₁, List.set_set, htasks, List.set_append_right _ _ (by simp),
          List.length_replicate, Nat.sub_self,
          show store.ids.length - n = store.ids.length - (n + 1) + 1 by omega,
          List.replicate_succ, List.set_cons_zero, List.replicate_succ', List.append_assoc]
        rfl
      · intro k id' hid'
        show ∃ evs, Builds d.total id' (u₁.objects (refOf redis k id')) evs ∧ _
        by_cases hr : refOf redis k id' = refOf redis n id
        · obtain rfl : id' = id := by simpa using congrArg Ref.aggregateId hr
          rw [hr]
          exact ⟨evs ++ tail, hevs₁, by rw [hstream]⟩
        · rw [hframe _ hr]
          exact hobjects k id' hid'

/-- When `Initialize` has come to its end, the cache has the replay of every listed
    aggregate with events. -/
theorem visible_of_listed (hredis : ∀ id v, redis id = some v → Written d.total store id v)
    (hstreams : ∀ id, History id (store.aggregate id))
    (hshort : ∀ id, (store.aggregate id).length < 2 ^ 31 - 1)
    (haccepts : ∀ id, d.Accepts d.init (store.aggregate id)) (hlisted : Listed store) :
    AllVisible d store redis := by
  intro shardKey ls u p hrun hstuck hinit id hne
  have hok : u.failed = false := by
    cases hfailed : u.failed with
    | false => rfl
    | true => simp [initializeCache, hfailed] at hinit
  have h : Progressing d store redis (objectOf d redis shardKey) u :=
    (progressing_start (objectOf_id d redis shardKey)).run hstreams hshort hrun hok
  have hbuilt : ∀ a ∈ u.aggregates, Builds d.total a.id a (store.aggregate a.id) := by
    intro a ha
    obtain ⟨k, -, hdone⟩ := h.mem_aggregates ha
    obtain ⟨evs, hevs, hpre⟩ := builds_objectOf shardKey hredis k a.id
    obtain ⟨a', hcatch, ha'⟩ := catchesUp_of_builds d hevs hpre (hstreams a.id) (hshort a.id)
      (haccepts a.id)
    obtain rfl : a' = a := Outcome.returned.inj (hcatch.symm.trans hdone)
    exact ha'
  have hviews : ∀ a ∈ u.aggregates, a.id = id → a.view = viewOf d.total 0 (store.aggregate id) := by
    rintro a ha rfl
    exact (hbuilt a ha).view hne
  have hmem : id ∈ u.aggregates.map Aggregate.id := by
    obtain ⟨k, hk⟩ := List.mem_iff_getElem?.mp (hlisted id hne)
    have hlt : k < u.tasks.length := by
      rw [h.tasks]
      exact (List.getElem?_eq_some_iff.mp hk).1
    have ht := List.getElem?_eq_getElem hlt
    rw [finished_of_stuck h.ok h.tasks hstuck ht] at ht
    -- an ended task counts, so its aggregate is in the list
    have hcount : 0 < u.ended store.ids id := by
      refine List.countP_pos_iff.mpr ⟨(id, .finished), ?_, by simp [UpdateTask.isFinished]⟩
      exact List.mem_of_getElem? (List.getElem?_zip_eq_some.mpr ⟨hk, ht⟩)
    rw [← h.count, List.length_pos_iff_exists_mem] at hcount
    obtain ⟨a, ha⟩ := hcount
    obtain ⟨ha, heq⟩ := List.mem_filter.mp ha
    exact List.mem_map.mpr ⟨a, ha, of_decide_eq_true heq⟩
  simp only [initializeCache, hok, Bool.false_eq_true, if_false, Option.some.injEq] at hinit
  obtain rfl := hinit
  refine ⟨Aggregate.ofSnapshot id (viewOf d.total 0 (store.aggregate id)), ?_, fun sk => ?_⟩
  · show populateCache (saveAggregates redis u.aggregates) id = _
    rw [populateCache, saveAggregates_apply hviews, if_pos hmem]
    rfl
  · refine ⟨built d.total id sk [] (store.aggregate id), applyEvents_new_accepted d sk (hstreams id)
      (haccepts id), ?_⟩
    rw [built_view, List.nil_append]
    exact viewOf_eq_of_ne_nil d.total hne 0 sk

/-- An aggregate that `T-Ids` does not list is in no cache. -/
theorem listed_of_visible (hredis : ∀ id v, redis id = some v → Written d.total store id v)
    (hstreams : ∀ id, History id (store.aggregate id))
    (hshort : ∀ id, (store.aggregate id).length < 2 ^ 31 - 1)
    (haccepts : ∀ id, d.Accepts d.init (store.aggregate id))
    (h : AllVisible d store redis) : Listed store := by
  intro id hne
  by_contra hnot
  obtain ⟨ls, u, hrun, hok, htasks, -⟩ := exists_complete (fun _ => 0) hredis hstreams hshort
    haccepts store.ids.length (Nat.le_refl _)
  rw [Nat.sub_self, List.replicate_zero, List.append_nil] at htasks
  have hstuck : Stuck d store redis u := by
    apply stuck_of_finished
    intro t ht
    rw [htasks] at ht
    exact (List.mem_replicate.mp ht).2
  have hprogress : Progressing d store redis (objectOf d redis fun _ => 0) u :=
    (progressing_start (objectOf_id d redis fun _ => 0)).run hstreams hshort hrun hok
  have hinit : initializeCache store redis u = some
      ⟨store, saveAggregates redis u.aggregates,
        populateCache (saveAggregates redis u.aggregates)⟩ := by
    rw [initializeCache, hok]
    rfl
  obtain ⟨a, ha, -⟩ := h _ ls u _ hrun hstuck hinit id hne
  have hnone : redis id = none := by
    cases hv : redis id with
    | none => rfl
    | some v => exact absurd (hredis id v hv).listed hnot
  have hno : id ∉ u.aggregates.map Aggregate.id := by
    intro hmem
    obtain ⟨b, hb, rfl⟩ := List.mem_map.mp hmem
    obtain ⟨k, hk, -⟩ := hprogress.mem_aggregates hb
    exact hnot (List.mem_of_getElem? hk)
  have hviews : ∀ b ∈ u.aggregates, b.id = id → b.view = viewOf d.total 0 [] := by
    rintro b hb rfl
    exact absurd (List.mem_map_of_mem hb) hno
  have hget : populateCache (saveAggregates redis u.aggregates) id = some a := ha
  rw [populateCache, saveAggregates_apply hviews, if_neg hno, hnone] at hget
  cases hget

/-- **Recovery.** Wherever the processes have stopped, `Initialize` shows every aggregate
    with stored events as its replay iff `T-Ids` lists all of them. -/
theorem allVisible_iff_listed {T : String} {ls : List (SavesLabel Id P)} {s : Saves Id S P}
    (hrun : Transition.run (savesStep d T) Saves.init ls = some s)
    (haccepting : Transition.Along (savesStep d T) (SavesAccepting d) Saves.init ls)
    (hshort : Short T s.world.store) :
    AllVisible d s.world.store s.redis ↔ Listed s.world.store := by
  obtain ⟨hinv, haccepted⟩ := saves_inv_run hrun haccepting hshort
  exact ⟨listed_of_visible hinv.redis hinv.world.streams hshort.aggregate haccepted.streams,
    visible_of_listed hinv.redis hinv.world.streams hshort.aggregate haccepted.streams⟩

end Recovery

section Users

open Milde.UserManagement

/-- A new user is saved, and the process stops after `n` of the awaited stages. -/
def stoppedAfter (n : Nat) : List (SavesLabel Nat UserEvent) :=
  let created := UserEvent.created (some "a") none 30
  [.process (.construct 7 41), .process (.raise 0 created.type created), .process (.save 0)] ++
    List.replicate n (.process (.complete 0 .none false))

def stoppedAfterEnd (n : Nat) : Saves Nat UserState UserEvent :=
  (Transition.run (savesStep userDomain.domain "User") Saves.init (stoppedAfter n)).getD Saves.init

/-- After the stage `T-Ids` the user is found. -/
theorem allVisible_stoppedAfter_three :
    AllVisible userDomain.domain (stoppedAfterEnd 3).world.store (stoppedAfterEnd 3).redis := by
  have hother : ∀ id, id ≠ 7 → (stoppedAfterEnd 3).world.store.aggregate id = [] := by
    intro id hid
    show Function.update (fun _ => []) 7 _ id = []
    rw [Function.update_of_ne hid]
  have hrun : Transition.run (savesStep userDomain.domain "User") Saves.init (stoppedAfter 3) =
      some (stoppedAfterEnd 3) := rfl
  have haccepting : ∀ (s : Saves Nat UserState UserEvent) (l : SavesLabel Nat UserEvent),
      SavesAccepting userDomain.domain s l := by
    intro s l
    cases l with
    | process l => exact accepting_of_total userDomain s.world l
    | redis i => trivial
  refine (allVisible_iff_listed hrun (Transition.along_of_forall haccepting _ _)
    ⟨fun id => ?_, by decide⟩).mpr ?_
  · by_cases hid : id = 7
    · subst hid
      decide
    · rw [hother id hid]
      decide
  · intro id hne
    by_cases hid : id = 7
    · subst hid
      decide
    · exact absurd (hother id hid) hne

/-- The process stops between the append to `T-7` and the one to `T-Ids`: after the restart
    the stored user is in no cache. -/
theorem allVisible_fails_stoppedAfter_two :
    Transition.Reachable (savesStep userDomain.domain "User") Saves.init (stoppedAfterEnd 2) ∧
      (stoppedAfterEnd 2).world.store.aggregate 7 ≠ [] ∧
      ¬ AllVisible userDomain.domain (stoppedAfterEnd 2).world.store (stoppedAfterEnd 2).redis := by
  refine ⟨⟨stoppedAfter 2, rfl⟩, by decide, fun h => ?_⟩
  obtain ⟨a, ha, -⟩ := h (fun _ => 0) [] _ _ rfl (stuck_of_finished (by decide)) rfl 7 (by decide)
  cases ha

end Users

end Milde.AggregateCache
