/-
  Milde.EventStore.Announced

  Where the events of a batch are, while any call may fail.

  `SaveAggregate` passes its batch on twice: from the stream `T` to `T-{id}`, and from there
  to the streams of the event classes.  A call that fails ends the save, and what it has
  passed on so far is not passed on any further: the same object writes the batch to `T` once
  more at its next save, but no batch enters `T-{id}` twice.  So nothing is announced that is
  not stored, and nothing twice (`announced_once`), and `T` has a batch once for each attempt
  to store it (`category_count`).
-/
import Milde.EventStore.PublishOrder

namespace Milde.EventStore

open Milde.EventSourcing

variable {Id S P : Type}

-- ============================================================================
-- Passages
-- ============================================================================

/-- The events that a save has written to `T` and not yet to `T-{id}`. -/
def Obj.written (obj : Obj Id S P) : List (AggregateEvent Id P) :=
  match obj.saving with
  | some (.aggregate events _) => events
  | _ => []

/-- What the failure of a call takes from what was to be passed on: what the save was waiting
    to pass on when the call has had no effect, and what it would have waited to pass on next
    when the call has taken effect. -/
def dropped [DecidableEq Id] (waits : Obj Id S P → List (AggregateEvent Id P)) (T : String)
    (w : World Id S P) : Label Id P → List (AggregateEvent Id P)
  | .complete o fault drop =>
      match w.objects[o]? with
      | some ⟨a, some call, views⟩ =>
          match fault, resume T drop w.store a call with
          | .none, some _ => []
          | .afterEffect, some (_, a', next) => waits ⟨a', next, views⟩
          | _, _ => waits ⟨a, some call, views⟩
      | _ => []
  | _ => []

/-- The stored events that the step keeps from being published. -/
def abandoned [DecidableEq Id] (T : String) (w : World Id S P) (l : Label Id P) :
    List (AggregateEvent Id P) :=
  dropped Obj.unpublished T w l

/-- The events that the step leaves in `T` without storing them. -/
def unstored [DecidableEq Id] (T : String) (w : World Id S P) (l : Label Id P) :
    List (AggregateEvent Id P) :=
  dropped Obj.written T w l

/-- How often objects wait to pass an event on. -/
def World.waiting [DecidableEq Id] [DecidableEq P] (waits : Obj Id S P → List (AggregateEvent Id P))
    (w : World Id S P) (e : AggregateEvent Id P) : Nat :=
  (w.objects.map fun obj => (waits obj).count e).sum

/-- The publish loop carries groups of the batch. -/
def Obj.Grouped (obj : Obj Id S P) : Prop :=
  ∀ t events rest, obj.saving = some (.bus t events rest) →
    ∃ done, eventsByType obj.agg.changes = done ++ (t, events) :: rest

/-- Events pass from one stream to another: an object that has taken an event from the one
    waits to give it to the other, and a call that succeeds changes nothing in this. -/
structure Passage [DecidableEq Id] [DecidableEq P] (d : TotalDomain Id S P) (T : String)
    (e : AggregateEvent Id P) where
  source : Store Id P → List (AggregateEvent Id P)
  target : Store Id P → List (AggregateEvent Id P)
  waits : Obj Id S P → List (AggregateEvent Id P)
  views : ∀ a saving (views views' : List (View S)),
    waits ⟨a, saving, views⟩ = waits ⟨a, saving, views'⟩
  idle : ∀ a views, waits ⟨a, none, views⟩ = []
  begins : ∀ a views, waits ⟨a, some (beginSave a), views⟩ = []
  passes : ∀ {s s' : Store Id P} {a a' : Aggregate Id S P} {call : Awaiting Id P}
    {next : Option (Awaiting Id P)} {views : List (View S)} {drop : Bool} {sk loaded},
    Tracks d s ⟨a, some call, views⟩ sk loaded → Obj.Grouped ⟨a, some call, views⟩ →
    Short T s → resume T drop s a call = some (s', a', next) →
    (source s').count e + (target s).count e + (waits ⟨a, some call, views⟩).count e =
      (source s).count e + (target s').count e + (waits ⟨a', next, views⟩).count e

-- ============================================================================
-- The groups of the publish loop
-- ============================================================================

section Grouped

variable {w w' : World Id S P}

theorem Obj.grouped_idle (a : Aggregate Id S P) (views : List (View S)) :
    Obj.Grouped ⟨a, none, views⟩ := by
  intro t events rest hsaving
  cases hsaving

theorem Obj.grouped_publishNext {a : Aggregate Id S P}
    {groups : List (ClrType × List (AggregateEvent Id P))} (views : List (View S))
    (h : ∃ done, eventsByType a.changes = done ++ groups) :
    Obj.Grouped ⟨(publishNext a groups).1, (publishNext a groups).2, views⟩ := by
  have hobj : Obj.Orderly ∅ "" ⟨(publishNext a groups).1, (publishNext a groups).2, views⟩ :=
    Obj.orderly_publishNext h
  exact hobj.groups

/-- A call that succeeds leaves the groups behind the one it has published. -/
theorem Obj.Grouped.resume [DecidableEq Id] {T : String} {s s' : Store Id P}
    {a a' : Aggregate Id S P} {call : Awaiting Id P} {views : List (View S)} {drop : Bool}
    {next : Option (Awaiting Id P)} (h : Obj.Grouped ⟨a, some call, views⟩)
    (hr : EventStore.resume T drop s a call = some (s', a', next)) (views' : List (View S)) :
    Obj.Grouped ⟨a', next, views'⟩ := by
  cases call with
  | category events =>
      cases hr
      intro t group rest hsaving
      cases hsaving
  | aggregate events version =>
      obtain ⟨stream, -, -, rfl, rfl⟩ := resume_aggregate hr
      intro t group rest hsaving
      cases hsaving
  | ids =>
      obtain ⟨-, hnext⟩ := resume_ids hr
      obtain ⟨rfl, rfl⟩ := Prod.ext_iff.mp hnext
      exact Obj.grouped_publishNext views' ⟨[], rfl⟩
  | bus t events rest =>
      obtain ⟨-, hnext⟩ := resume_bus hr
      obtain ⟨rfl, rfl⟩ := Prod.ext_iff.mp hnext
      obtain ⟨done, hdone⟩ := h t events rest rfl
      refine Obj.grouped_publishNext views' ⟨done ++ [(t, events)], ?_⟩
      rw [List.append_assoc]
      exact hdone

theorem grouped_addObject (h : ∀ obj ∈ w.objects, obj.Grouped) (a : Aggregate Id S P)
    (views : List (View S)) : ∀ obj ∈ (w.addObject a views).objects, obj.Grouped := by
  intro obj hobj
  rcases List.mem_append.mp hobj with hobj | hobj
  · exact h obj hobj
  · rw [List.mem_singleton.mp hobj]
    exact Obj.grouped_idle a views

theorem grouped_set (h : ∀ obj ∈ w.objects, obj.Grouped) {obj : Obj Id S P} (hobj : obj.Grouped)
    (o : Nat) : ∀ obj' ∈ w.objects.set o obj, obj'.Grouped := by
  intro obj' hobj'
  rcases List.mem_or_eq_of_mem_set hobj' with hmem | rfl
  · exact h obj' hmem
  · exact hobj

theorem grouped_step [DecidableEq Id] {d : Domain Id S P} {T : String} {l : Label Id P}
    (h : ∀ obj ∈ w.objects, obj.Grouped) (hstep : step d T w l = some w') :
    ∀ obj ∈ w'.objects, obj.Grouped := by
  rcases step_cases hstep with ⟨_, _, -, rfl⟩ | ⟨_, _, _, _, -, -, rfl⟩ |
    ⟨_, _, _, _, _, _, -, -, -, rfl⟩ | ⟨_, _, _, _, -, -, rfl⟩ |
    ⟨_, _, _, _, _, -, -, ⟨_, -, rfl⟩ | ⟨_, -, rfl⟩⟩ | ⟨_, _, _, -, -, rfl⟩ |
    ⟨o, fault, drop, a, call, views, -, ho, rfl⟩
  · exact grouped_addObject h _ _
  · exact grouped_addObject h _ _
  · exact grouped_addObject h _ _
  · exact grouped_addObject h _ _
  · exact grouped_set h (Obj.grouped_idle _ _) _
  · exact grouped_set h (Obj.grouped_idle _ _) _
  · refine grouped_set h ?_ _
    intro t events rest hsaving
    cases hsaving
  · have hobj := h _ (List.mem_of_getElem? ho)
    rcases completeCall_cases T w o ⟨a, some call, views⟩ call fault drop with ⟨heq, -⟩ |
      ⟨s, a', next, hr, ⟨-, heq⟩ | ⟨-, heq⟩⟩
    · rw [heq]
      exact grouped_set h (Obj.grouped_idle _ _) _
    · rw [heq]
      exact grouped_set h (Obj.grouped_idle _ _) _
    · rw [heq]
      exact grouped_set h (hobj.resume hr _) _

/-- A group at the head of the loop is of one class. -/
theorem Obj.Grouped.type_eq {a : Aggregate Id S P} {t : ClrType}
    {events : List (AggregateEvent Id P)} {rest : List (ClrType × List (AggregateEvent Id P))}
    {views : List (View S)} (h : Obj.Grouped ⟨a, some (.bus t events rest), views⟩) :
    ∀ e ∈ events, e.type = t := by
  obtain ⟨done, hdone⟩ := h t events rest rfl
  have hmem : (t, events) ∈ eventsByType a.changes := by
    rw [hdone]
    simp
  exact fun e he => ((group_spec hmem).2 e he).2

end Grouped

-- ============================================================================
-- One step
-- ============================================================================

section Step

variable [DecidableEq Id] {d : TotalDomain Id S P} {T : String} {w w' : World Id S P}
  {l : Label Id P}

/-- What a call that ends takes from what was to be passed on. -/
theorem dropped_complete (waits : Obj Id S P → List (AggregateEvent Id P)) {o : Nat}
    {a : Aggregate Id S P} {call : Awaiting Id P} {views : List (View S)}
    (ho : w.objects[o]? = some ⟨a, some call, views⟩) (fault : Fault) (drop : Bool) :
    (fault = .noEffect ∨ resume T drop w.store a call = none →
      dropped waits T w (.complete o fault drop) = waits ⟨a, some call, views⟩) ∧
    ∀ s a' next, resume T drop w.store a call = some (s, a', next) →
      (fault = .afterEffect →
        dropped waits T w (.complete o fault drop) = waits ⟨a', next, views⟩) ∧
      (fault = .none → dropped waits T w (.complete o fault drop) = []) := by
  simp only [dropped, ho]
  refine ⟨?_, ?_⟩
  · rintro (rfl | hnone)
    · rfl
    · rw [hnone]
      cases fault with
      | none => rfl
      | noEffect => rfl
      | afterEffect => rfl
  · intro s a' next hr
    rw [hr]
    refine ⟨?_, ?_⟩
    · rintro rfl
      rfl
    · rintro rfl
      rfl

variable [DecidableEq P] {e : AggregateEvent Id P}

theorem waiting_addObject (p : Passage d T e) (w : World Id S P) (a : Aggregate Id S P)
    (views : List (View S)) : (w.addObject a views).waiting p.waits e = w.waiting p.waits e := by
  simp [World.waiting, World.addObject, p.idle]

theorem waiting_set (waits : Obj Id S P → List (AggregateEvent Id P)) {o : Nat}
    {obj : Obj Id S P} (ho : w.objects[o]? = some obj) (s : Store Id P) (obj' : Obj Id S P)
    (commits : List (Commit Id S P)) :
    World.waiting waits ⟨s, w.objects.set o obj', commits⟩ e + (waits obj).count e =
      w.waiting waits e + (waits obj').count e :=
  List.sum_map_set (fun obj => (waits obj).count e) obj' ho

theorem waiting_setObject {waits : Obj Id S P → List (AggregateEvent Id P)} {o : Nat}
    {obj obj' : Obj Id S P} (ho : w.objects[o]? = some obj) (hsame : waits obj' = waits obj) :
    (w.setObject o obj').waiting waits e = w.waiting waits e := by
  have hset := waiting_set (e := e) waits ho w.store obj' w.commits
  rw [hsame] at hset
  exact Nat.add_right_cancel hset

/-- **One step**: what is no longer in the source alone is in the target, waits to be passed
    on, or has been dropped. -/
theorem Passage.step (p : Passage d T e) (hinv : Inv d w)
    (hgrouped : ∀ obj ∈ w.objects, obj.Grouped) (hshort : Short T w.store)
    (hstep : EventStore.step d.domain T w l = some w') :
    (p.source w'.store).count e + (p.target w.store).count e + w.waiting p.waits e =
      (p.source w.store).count e + (p.target w'.store).count e + w'.waiting p.waits e +
        (dropped p.waits T w l).count e := by
  rcases step_cases hstep with ⟨_, _, rfl, rfl⟩ | ⟨_, _, _, _, rfl, -, rfl⟩ |
    ⟨_, _, _, _, _, _, rfl, -, -, rfl⟩ | ⟨_, _, _, _, rfl, -, rfl⟩ |
    ⟨_, _, _, _, _, rfl, ho, ⟨_, -, rfl⟩ | ⟨_, -, rfl⟩⟩ | ⟨_, _, _, rfl, ho, rfl⟩ |
    ⟨o, fault, drop, a, call, views, rfl, ho, rfl⟩
  · rw [waiting_addObject]
    rfl
  · rw [waiting_addObject]
    rfl
  · rw [waiting_addObject]
    rfl
  · rw [waiting_addObject]
    rfl
  · rw [waiting_setObject ho (by rw [p.idle, p.idle])]
    rfl
  · rw [waiting_setObject ho (by rw [p.idle, p.idle])]
    rfl
  · rw [waiting_setObject ho (by rw [p.begins, p.idle])]
    rfl
  · obtain ⟨sk, loaded, ht⟩ := hinv.objects _ (List.mem_of_getElem? ho)
    have hobj := hgrouped _ (List.mem_of_getElem? ho)
    obtain ⟨hfailed, hended⟩ := dropped_complete (T := T) p.waits ho fault drop
    rcases completeCall_cases T w o ⟨a, some call, views⟩ call fault drop with ⟨heq, hwhy⟩ |
      ⟨s, a', next, hr, ⟨hfault, heq⟩ | ⟨hfault, heq⟩⟩
    · have hset := waiting_set (e := e) p.waits ho w.store ⟨a, none, views⟩ w.commits
      rw [p.idle, List.count_nil] at hset
      rw [heq, hfailed hwhy]
      simp only [World.setObject] at hset ⊢
      omega
    · have hset := waiting_set (e := e) p.waits ho s ⟨a, none, views⟩
        (w.commitLog ⟨a, some call, views⟩ call)
      have hpasses := p.passes ht hobj hshort hr
      rw [p.idle, List.count_nil] at hset
      rw [heq, (hended s a' next hr).1 hfault]
      dsimp only at hset ⊢
      omega
    · have hset := waiting_set (e := e) p.waits ho s
        ⟨a', next, if next.isNone then [] else views⟩ (w.commitLog ⟨a, some call, views⟩ call)
      have hpasses := p.passes ht hobj hshort hr
      rw [p.views a' next _ views] at hset
      rw [heq, (hended s a' next hr).2 hfault]
      simp only [List.count_nil] at hset ⊢
      omega

end Step

-- ============================================================================
-- Runs
-- ============================================================================

section Runs

variable [DecidableEq Id] [DecidableEq P] {d : Domain Id S P} {T : String} {w : World Id S P}
  {ls : List (Label Id P)} {e : AggregateEvent Id P}

/-- The source has the event as often as the target, the waiting objects and `lost`. -/
structure Passage.Kept {d : TotalDomain Id S P} (p : Passage d T e) (w : World Id S P)
    (lost : List (AggregateEvent Id P)) : Prop where
  inv : Inv d w
  grouped : ∀ obj ∈ w.objects, obj.Grouped
  count : (p.source w.store).count e =
    (p.target w.store).count e + w.waiting p.waits e + lost.count e

/-- **A whole run**: what is lost on the way is what the steps of the run drop. -/
theorem Passage.run (p : Passage d.total T e)
    (hempty : (p.source Store.empty).count e = (p.target Store.empty).count e)
    (hrun : Transition.run (EventStore.step d T) World.init ls = some w)
    (haccepting : Transition.Along (EventStore.step d T) (Accepting d) World.init ls)
    (hshort : Short T w.store) :
    p.Kept w (Transition.gather (EventStore.step d T) (dropped p.waits T) World.init ls) := by
  have hinit : p.Kept World.init [] := by
    refine ⟨inv_init, ?_, hempty⟩
    intro obj hobj
    cases hobj
  refine Transition.run_gather (I := p.Kept) ?_ hinit
    (haccepting.and (along_short hrun hshort)) hrun
  rintro v acc l v' ⟨hinv, hgrouped, hcount⟩ ⟨haccepting, hshort⟩ hstep
  have htotal := step_total hinv hshort haccepting hstep
  have hone := p.step hinv hgrouped hshort htotal
  refine ⟨hinv.step hshort htotal, grouped_step hgrouped hstep, ?_⟩
  rw [List.count_append]
  omega

end Runs

-- ============================================================================
-- The two passages
-- ============================================================================

section Passages

variable [DecidableEq Id] [DecidableEq P] {T : String} {e : AggregateEvent Id P}

theorem count_foreign {id : Id} {events : List (AggregateEvent Id P)}
    (hown : ∀ e ∈ events, e.aggregateId = id) (hne : e.aggregateId ≠ id) : events.count e = 0 :=
  List.count_eq_zero.mpr fun he => hne (hown e he)

/-- The stream of an aggregate takes a batch of its own. -/
theorem count_setAggregate (s : Store Id P) {id : Id} {events : List (AggregateEvent Id P)}
    (hown : ∀ e ∈ events, e.aggregateId = id) :
    ((s.setAggregate id (s.aggregate id ++ events)).aggregate e.aggregateId).count e =
      (s.aggregate e.aggregateId).count e + events.count e := by
  by_cases hid : e.aggregateId = id
  · rw [hid, Store.setAggregate_self, List.count_append]
  · rw [Store.setAggregate_ne s hid, count_foreign hown hid, Nat.add_zero]

/-- The stream of a class takes a group of one class. -/
theorem count_appendTyped (s : Store Id P) {t : ClrType} {events : List (AggregateEvent Id P)}
    (htype : ∀ e ∈ events, e.type = t) :
    ((s.appendTyped (getStream t) events).typed (getStream e.type)).count e =
      (s.typed (getStream e.type)).count e + events.count e := by
  by_cases hname : getStream e.type = getStream t
  · rw [hname, Store.appendTyped_typed_self, List.count_append]
  · have hnone : events.count e = 0 := List.count_eq_zero.mpr fun he => hname (by rw [htype e he])
    rw [Store.appendTyped_typed_ne s hname, hnone, Nat.add_zero]

/-- A call that succeeds stores what it has to publish, and publishes it later. -/
theorem passes_unpublished {d : TotalDomain Id S P} (hname : getStream e.type ≠ T)
    {s s' : Store Id P} {a a' : Aggregate Id S P} {call : Awaiting Id P}
    {next : Option (Awaiting Id P)} {views : List (View S)} {drop : Bool} {sk : Int32}
    {loaded : List (AggregateEvent Id P)} (ht : Tracks d s ⟨a, some call, views⟩ sk loaded)
    (hgrouped : Obj.Grouped ⟨a, some call, views⟩) (hshort : Short T s)
    (hr : resume T drop s a call = some (s', a', next)) :
    (s'.aggregate e.aggregateId).count e + (s.typed (getStream e.type)).count e +
        (Obj.unpublished ⟨a, some call, views⟩).count e =
      (s.aggregate e.aggregateId).count e + (s'.typed (getStream e.type)).count e +
        (Obj.unpublished ⟨a', next, views⟩).count e := by
  cases call with
  | category events =>
      cases hr
      rw [Store.appendTyped_typed_ne s hname]
      rfl
  | aggregate events version =>
      obtain ⟨stream, hsave, rfl, rfl, rfl⟩ := resume_aggregate hr
      obtain ⟨rfl, hloaded, rfl⟩ := ht.accepted hshort hsave
      have hown : ∀ e ∈ a.changes, e.aggregateId = a.id :=
        fun e he => ht.history.own e (List.mem_append_right loaded he)
      rw [← hloaded, count_setAggregate s hown, Store.setAggregate_typed]
      show _ + List.count e [] = _ + a.changes.count e
      rw [List.count_nil]
      omega
  | ids =>
      obtain ⟨rfl, hnext⟩ := resume_ids hr
      obtain ⟨rfl, rfl⟩ := Prod.ext_iff.mp hnext
      have hgroups : ((eventsByType a.getUncommitedChanges).flatMap Prod.snd).count e =
          a.getUncommitedChanges.count e := (flatMap_groupBy_perm _ _).count_eq e
      rw [Store.appendId_aggregate, Store.appendId_typed, unpublished_publishNext, hgroups]
      rfl
  | bus t events rest =>
      obtain ⟨rfl, hnext⟩ := resume_bus hr
      obtain ⟨rfl, rfl⟩ := Prod.ext_iff.mp hnext
      rw [count_appendTyped s hgrouped.type_eq, unpublished_publishNext]
      show _ + (events ++ rest.flatMap Prod.snd).count e = _
      rw [List.count_append, Store.appendTyped_aggregate]
      omega

/-- A call that succeeds writes what it has to store to `T`, and stores it next. -/
theorem passes_written {d : TotalDomain Id S P} (hname : getStream e.type ≠ T)
    {s s' : Store Id P} {a a' : Aggregate Id S P} {call : Awaiting Id P}
    {next : Option (Awaiting Id P)} {views : List (View S)} {drop : Bool} {sk : Int32}
    {loaded : List (AggregateEvent Id P)} (ht : Tracks d s ⟨a, some call, views⟩ sk loaded)
    (hgrouped : Obj.Grouped ⟨a, some call, views⟩) (hshort : Short T s)
    (hr : resume T drop s a call = some (s', a', next)) :
    (s'.typed T).count e + (s.aggregate e.aggregateId).count e +
        (Obj.written ⟨a, some call, views⟩).count e =
      (s.typed T).count e + (s'.aggregate e.aggregateId).count e +
        (Obj.written ⟨a', next, views⟩).count e := by
  have hnone : ∀ groups, Obj.written ⟨(publishNext a groups).1, (publishNext a groups).2,
      views⟩ = [] := by
    intro groups
    cases groups with
    | nil => rfl
    | cons g rest => rfl
  cases call with
  | category events =>
      cases hr
      rw [Store.appendTyped_typed_self, List.count_append]
      show _ + List.count e [] = _ + events.count e
      rw [List.count_nil, Store.appendTyped_aggregate]
      omega
  | aggregate events version =>
      obtain ⟨stream, hsave, rfl, rfl, rfl⟩ := resume_aggregate hr
      obtain ⟨rfl, hloaded, rfl⟩ := ht.accepted hshort hsave
      have hown : ∀ e ∈ a.changes, e.aggregateId = a.id :=
        fun e he => ht.history.own e (List.mem_append_right loaded he)
      rw [← hloaded, count_setAggregate s hown, Store.setAggregate_typed]
      show _ + a.changes.count e = _ + List.count e []
      rw [List.count_nil]
      omega
  | ids =>
      obtain ⟨rfl, hnext⟩ := resume_ids hr
      obtain ⟨rfl, rfl⟩ := Prod.ext_iff.mp hnext
      rw [Store.appendId_aggregate, Store.appendId_typed, hnone]
      rfl
  | bus t events rest =>
      obtain ⟨rfl, hnext⟩ := resume_bus hr
      obtain ⟨rfl, rfl⟩ := Prod.ext_iff.mp hnext
      have hsame : ((s.appendTyped (getStream t) events).typed T).count e =
          (s.typed T).count e := by
        by_cases hT : T = getStream t
        · have hforeign : events.count e = 0 := List.count_eq_zero.mpr fun he =>
            hname (by rw [hgrouped.type_eq e he, hT])
          rw [hT, Store.appendTyped_typed_self, List.count_append, hforeign, Nat.add_zero]
        · rw [Store.appendTyped_typed_ne s hT]
      rw [hsame, hnone]
      rfl

/-- From `T-{id}` to the streams of the event classes. -/
def announcing (d : TotalDomain Id S P) (hname : getStream e.type ≠ T) : Passage d T e where
  source s := s.aggregate e.aggregateId
  target s := s.typed (getStream e.type)
  waits := Obj.unpublished
  views _ _ _ _ := rfl
  idle _ _ := rfl
  begins _ _ := rfl
  passes := passes_unpublished hname

/-- From `T` to `T-{id}`. -/
def storing (d : TotalDomain Id S P) (hname : getStream e.type ≠ T) : Passage d T e where
  source s := s.typed T
  target s := s.aggregate e.aggregateId
  waits := Obj.written
  views _ _ _ _ := rfl
  idle _ _ := rfl
  begins _ _ := rfl
  passes := passes_written hname

end Passages

-- ============================================================================
-- What the streams have
-- ============================================================================

section Streams

variable [DecidableEq Id] [DecidableEq P] {d : Domain Id S P} {T : String} {w : World Id S P}
  {ls : List (Label Id P)}

/-- A stream has no event twice. -/
theorem count_aggregate_le_one (hinv : Inv d.total w) (hshort : Short T w.store) (id : Id)
    (e : AggregateEvent Id P) : (w.store.aggregate id).count e ≤ 1 := by
  have hsorted := (hinv.streams id).pairwise_version (hshort.aggregate id)
  refine List.nodup_iff_count_le_one.mp (hsorted.imp ?_) e
  rintro e e' hlt rfl
  exact Int32.lt_irrefl hlt

/-- **Nothing is announced that is not stored, and nothing twice**, in any run, whatever
    fails.  When all saves have ended, a stored event is missing in the stream of its class
    iff a step of the run has abandoned it. -/
theorem announced_once (hrun : Transition.run (step d T) World.init ls = some w)
    (haccepting : Transition.Along (step d T) (Accepting d) World.init ls)
    (hshort : Short T w.store) (e : AggregateEvent Id P) (hname : getStream e.type ≠ T) :
    (w.store.typed (getStream e.type)).count e ≤ 1 ∧
      (e ∈ w.store.typed (getStream e.type) → e ∈ w.store.aggregate e.aggregateId) ∧
      ((∀ obj ∈ w.objects, obj.saving = none) → e ∈ w.store.aggregate e.aggregateId →
        (e ∈ w.store.typed (getStream e.type) ↔
          Transition.Along (step d T) (fun w l => e ∉ abandoned T w l) World.init ls)) := by
  have hkept := (announcing d.total hname).run rfl hrun haccepting hshort
  have hone := count_aggregate_le_one hkept.inv hshort e.aggregateId e
  have hcount : (w.store.aggregate e.aggregateId).count e =
      (w.store.typed (getStream e.type)).count e + w.waiting Obj.unpublished e +
        (Transition.gather (step d T) (abandoned T) World.init ls).count e := hkept.count
  refine ⟨by omega, fun he => ?_, fun hquiet hstored => ?_⟩
  · have hpos := List.count_pos_iff.mpr he
    exact List.count_pos_iff.mp (by omega)
  · have hnone : w.waiting Obj.unpublished e = 0 := by
      apply List.sum_eq_zero
      intro n hn
      obtain ⟨obj, hobj, rfl⟩ := List.mem_map.mp hn
      simp [Obj.unpublished, hquiet obj hobj]
    have hpos := List.count_pos_iff.mpr hstored
    rw [← Transition.notMem_gather hrun, ← List.count_eq_zero, ← List.count_pos_iff]
    omega

/-- **The stream `T` has a batch once for every attempt to store it**: an event is in `T` as
    often as it is stored, a running save has written it to `T` only, or a step has ended a
    save that had. -/
theorem category_count (hrun : Transition.run (step d T) World.init ls = some w)
    (haccepting : Transition.Along (step d T) (Accepting d) World.init ls)
    (hshort : Short T w.store) (e : AggregateEvent Id P) (hname : getStream e.type ≠ T) :
    (w.store.aggregate e.aggregateId).count e ≤ 1 ∧
      (w.store.typed T).count e = (w.store.aggregate e.aggregateId).count e +
        w.waiting Obj.written e +
          (Transition.gather (step d T) (unstored T) World.init ls).count e := by
  have hkept := (storing d.total hname).run rfl hrun haccepting hshort
  exact ⟨count_aggregate_le_one hkept.inv hshort e.aggregateId e, hkept.count⟩

end Streams

section Users

open Milde.UserManagement

/-- A user is created; its event is stored and cannot be published, and neither can it when
    the user is saved again. -/
def publishedNever : List (Label Nat UserEvent) :=
  let created := UserEvent.created (some "a") none 30
  [.construct 7 41, .raise 0 created.type created, .save 0] ++
    List.replicate 3 (.complete 0 .none false) ++ [.complete 0 .noEffect false, .save 0] ++
    List.replicate 2 (.complete 0 .none false)

def publishedNeverEnd : World Nat UserState UserEvent :=
  (Transition.run (step userDomain.domain "User") World.init publishedNever).getD World.init

def createdEvent : AggregateEvent Nat UserEvent :=
  let created := UserEvent.created (some "a") none 30
  ⟨created.type, 7, 1, 41, created⟩

theorem short_publishedNeverEnd : Short "User" publishedNeverEnd.store := by
  refine ⟨fun id => ?_, by decide⟩
  by_cases h : id = 7
  · subst h
    decide
  · show (Function.update (fun _ => []) 7 _ id).length < _
    rw [Function.update_of_ne h]
    decide

theorem announced_once_publishedNever :
    Transition.run (step userDomain.domain "User") World.init publishedNever =
        some publishedNeverEnd ∧
      createdEvent ∈ publishedNeverEnd.store.aggregate 7 ∧
      createdEvent ∉ publishedNeverEnd.store.typed "UserCreatedEvent" := by
  have hrun : Transition.run (step userDomain.domain "User") World.init publishedNever =
      some publishedNeverEnd := rfl
  have hannounced := announced_once hrun
    (Transition.along_of_forall (accepting_of_total userDomain) _ _) short_publishedNeverEnd
    createdEvent (by decide)
  refine ⟨hrun, by decide, fun he => ?_⟩
  have hkept := (hannounced.2.2 (by decide) (by decide)).mp he
  revert hkept
  decide

/-- Each of the two saves has left the event in the category stream. -/
theorem category_count_publishedNever :
    Transition.run (step userDomain.domain "User") World.init publishedNever =
        some publishedNeverEnd ∧
      (publishedNeverEnd.store.typed "User").count createdEvent =
        (publishedNeverEnd.store.aggregate 7).count createdEvent + 1 := by
  have hrun : Transition.run (step userDomain.domain "User") World.init publishedNever =
      some publishedNeverEnd := rfl
  have hcount := category_count hrun
    (Transition.along_of_forall (accepting_of_total userDomain) _ _) short_publishedNeverEnd
    createdEvent (by decide)
  have hunstored : (Transition.gather (step userDomain.domain "User") (unstored "User") World.init
      publishedNever).count createdEvent = 1 := by decide
  rw [hunstored] at hcount
  exact ⟨hrun, hcount.2⟩

end Users

end Milde.EventStore
