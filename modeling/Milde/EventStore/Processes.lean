/-
  Milde.EventStore.Processes

  Any number of service processes over one event store.

  A process matters only through the aggregate objects it holds, so the state is the
  store and a list of objects, which grows and is indexed by position.  An object is
  new, read back from a Redis snapshot of a prefix of its stream, such an object after
  `UpdateAggregate`, or a new object that replayed its group of the stream `T`.  A
  command raises events on an idle object; `save` starts a `SaveAggregate`, and
  `complete` ends the store call it awaits — with success, with `WrongExpectedVersion`,
  or, if the label says so, with another failure before or after the call took effect.
  A failed save leaves the object in use as it is.

  Two components are ghosts: an object remembers what it looked like when each of its
  uncommitted events was applied (`computedFrom`), and every batch accepted by a
  `T-{id}` stream is logged with the stream it was appended to (`commits`).
-/
import Milde.Common.Run
import Milde.EventStore.SaveAggregate

namespace Milde.EventStore

open Milde.EventSourcing

variable {Id S P : Type}

/-- An aggregate object held by some process. -/
structure Obj (Id S P : Type) where
  agg : Aggregate Id S P
  saving : Option (Awaiting Id P)
  computedFrom : List (View S)

/-- A batch accepted by the stream of `id` when it held `before`. -/
structure Commit (Id S P : Type) where
  id : Id
  before : List (AggregateEvent Id P)
  batch : List (AggregateEvent Id P)
  computedFrom : List (View S)

structure World (Id S P : Type) where
  store : Store Id P
  objects : List (Obj Id S P)
  commits : List (Commit Id S P)

/-- How an awaited call ends apart from `WrongExpectedVersion`. -/
inductive Fault where
  | none
  | noEffect
  | afterEffect
deriving DecidableEq, Repr

/-- What happens next.  Objects are named by their position. -/
inductive Label (Id P : Type) where
  | construct (id : Id) (shardKey : Int32)
  | deserialize (id : Id) (length : Nat) (shardKey : Int32)
  | rehydrate (id : Id) (length upTo : Nat) (shardKey : Int32)
  | replay (id : Id) (upTo : Nat) (shardKey : Int32)
  | raise (o : Nat) (type : ClrType) (payload : P)
  | save (o : Nat)
  | complete (o : Nat) (fault : Fault) (drop : Bool)
deriving DecidableEq, Repr

/-- The store empty and no objects. -/
def World.init : World Id S P := ⟨Store.empty, [], []⟩

/-- What an object looks like before each of the events it is about to apply. -/
def viewsAlong [DecidableEq Id] (d : Domain Id S P) :
    Aggregate Id S P → List (AggregateEvent Id P) → List (View S)
  | _, [] => []
  | a, e :: es => a.view :: viewsAlong d (a.applyEvent d e).object es

/-- The snapshot of an object saved after the events `evs`, read back. -/
def snapshotOf [DecidableEq Id] (d : Domain Id S P) (id : Id) (shardKey : Int32)
    (evs : List (AggregateEvent Id P)) : Option (Aggregate Id S P) :=
  match (Aggregate.new d id shardKey).applyEvents d evs with
  | .returned a => some (Aggregate.ofSnapshot id a.view)
  | .threw _ => none

/-- Put an object at the end of the list. -/
def World.addObject (w : World Id S P) (a : Aggregate Id S P) (views : List (View S)) :
    World Id S P :=
  { w with objects := w.objects ++ [⟨a, none, views⟩] }

@[simp] theorem World.addObject_store (w : World Id S P) (a : Aggregate Id S P)
    (views : List (View S)) : (w.addObject a views).store = w.store := rfl

/-- Replace the object at position `o`. -/
def World.setObject (w : World Id S P) (o : Nat) (obj : Obj Id S P) : World Id S P :=
  { w with objects := w.objects.set o obj }

/-- The log after a call that took effect: an append to `T-{id}` joins it. -/
def World.commitLog (w : World Id S P) (obj : Obj Id S P) :
    Awaiting Id P → List (Commit Id S P)
  | .aggregate events _ =>
      w.commits ++ [⟨obj.agg.id, w.store.aggregate obj.agg.id, events, obj.computedFrom⟩]
  | _ => w.commits

/-- The awaited call of the object at `o` ends. -/
def World.completeCall [DecidableEq Id] (T : String) (w : World Id S P) (o : Nat)
    (obj : Obj Id S P) (call : Awaiting Id P) (fault : Fault) (drop : Bool) : World Id S P :=
  match fault, resume T drop w.store obj.agg call with
  | .noEffect, _ => w.setObject o { obj with saving := none }
  | _, none => w.setObject o { obj with saving := none }
  | .afterEffect, some (store, _, _) =>
      { store
        objects := w.objects.set o { obj with saving := none }
        commits := w.commitLog obj call }
  | .none, some (store, agg, next) =>
      { store
        objects := w.objects.set o ⟨agg, next, if next.isNone then [] else obj.computedFrom⟩
        commits := w.commitLog obj call }

/-- The events of one aggregate among those of its class. -/
def eventsOf [DecidableEq Id] (id : Id) (events : List (AggregateEvent Id P)) :
    List (AggregateEvent Id P) :=
  events.filter fun e => decide (e.aggregateId = id)

/-- One step of the system; `none` when the label is not enabled. -/
def step [DecidableEq Id] (d : Domain Id S P) (T : String) (w : World Id S P) :
    Label Id P → Option (World Id S P)
  | .construct id shardKey => some (w.addObject (Aggregate.new d id shardKey) [])
  | .deserialize id length shardKey =>
      (snapshotOf d id shardKey ((w.store.aggregate id).take length)).map fun a =>
        w.addObject a []
  | .rehydrate id length upTo shardKey =>
      -- the reads of `GetEvents` may be older than the state they are applied in
      let stream := (w.store.aggregate id).take upTo
      (snapshotOf d id shardKey (stream.take length)).bind fun a =>
        match updateAggregate d stream a with
        | .returned a' =>
            some (w.addObject a' (viewsAlong d a (orderByVersion (stream.drop length))))
        | .threw _ => none
  | .replay id upTo shardKey =>
      let events := orderByVersion (eventsOf id ((w.store.typed T).take upTo))
      match (Aggregate.new d id shardKey).applyEvents d events with
      | .returned a => some (w.addObject a (viewsAlong d (Aggregate.new d id shardKey) events))
      | .threw _ => none
  | .raise o type payload =>
      match w.objects[o]? with
      | some ⟨a, none, views⟩ =>
          match a.applyEvent d (a.nextEvent type payload) with
          | .returned a' => some (w.setObject o ⟨a', none, views ++ [a.view]⟩)
          | .threw a' => some (w.setObject o ⟨a', none, views⟩)
      | _ => none
  | .save o =>
      match w.objects[o]? with
      | some ⟨a, none, views⟩ => some (w.setObject o ⟨a, some (beginSave a), views⟩)
      | _ => none
  | .complete o fault drop =>
      match w.objects[o]? with
      | some ⟨a, some call, views⟩ =>
          some (w.completeCall T o ⟨a, some call, views⟩ call fault drop)
      | _ => none

theorem objects_set_self {objects : List (Obj Id S P)} {o : Nat} {obj : Obj Id S P}
    (ho : objects[o]? = some obj) : objects.set o obj = objects := by
  obtain ⟨hlt, hget⟩ := List.getElem?_eq_some_iff.mp ho
  rw [← hget, List.set_getElem_self]

-- ============================================================================
-- What a step can do
-- ============================================================================

section Inversion

variable [DecidableEq Id]

theorem snapshotOf_history (d : TotalDomain Id S P) {id : Id} (sk : Int32)
    {evs : List (AggregateEvent Id P)} (h : History id evs) :
    snapshotOf d.domain id sk evs = some (built d id sk evs []) := by
  rw [snapshotOf, applyEvents_new d sk h]
  simp only [built_view, List.nil_append, ofSnapshot_viewOf]

/-- The seven things a step does, with the object it is about. -/
theorem step_cases {d : Domain Id S P} {T : String} {w w' : World Id S P} {l : Label Id P}
    (h : step d T w l = some w') :
    (∃ id sk, l = .construct id sk ∧ w' = w.addObject (Aggregate.new d id sk) []) ∨
    (∃ id n sk a, l = .deserialize id n sk ∧
      snapshotOf d id sk ((w.store.aggregate id).take n) = some a ∧ w' = w.addObject a []) ∨
    (∃ id n m sk a a', l = .rehydrate id n m sk ∧
      snapshotOf d id sk (((w.store.aggregate id).take m).take n) = some a ∧
      updateAggregate d ((w.store.aggregate id).take m) a = .returned a' ∧
      w' = w.addObject a'
        (viewsAlong d a (orderByVersion (((w.store.aggregate id).take m).drop n)))) ∨
    (∃ id m sk a, l = .replay id m sk ∧
      (Aggregate.new d id sk).applyEvents d
        (orderByVersion (eventsOf id ((w.store.typed T).take m))) = .returned a ∧
      w' = w.addObject a (viewsAlong d (Aggregate.new d id sk)
        (orderByVersion (eventsOf id ((w.store.typed T).take m))))) ∨
    (∃ o t p a views, l = .raise o t p ∧ w.objects[o]? = some ⟨a, none, views⟩ ∧
      ((∃ a', a.applyEvent d (a.nextEvent t p) = .returned a' ∧
          w' = w.setObject o ⟨a', none, views ++ [a.view]⟩) ∨
        (∃ a', a.applyEvent d (a.nextEvent t p) = .threw a' ∧
          w' = w.setObject o ⟨a', none, views⟩))) ∨
    (∃ o a views, l = .save o ∧ w.objects[o]? = some ⟨a, none, views⟩ ∧
      w' = w.setObject o ⟨a, some (beginSave a), views⟩) ∨
    (∃ o fault drop a call views, l = .complete o fault drop ∧
      w.objects[o]? = some ⟨a, some call, views⟩ ∧
      w' = w.completeCall T o ⟨a, some call, views⟩ call fault drop) := by
  cases l with
  | construct id sk =>
      refine Or.inl ⟨id, sk, rfl, ?_⟩
      exact (Option.some.inj h).symm
  | deserialize id n sk =>
      simp only [step, Option.map_eq_some_iff] at h
      obtain ⟨a, ha, rfl⟩ := h
      exact Or.inr (Or.inl ⟨id, n, sk, a, rfl, ha, rfl⟩)
  | rehydrate id n m sk =>
      simp only [step, Option.bind_eq_some_iff] at h
      obtain ⟨a, ha, h⟩ := h
      split at h
      · rename_i a' ha'
        exact Or.inr (Or.inr (Or.inl ⟨id, n, m, sk, a, a', rfl, ha, ha', (Option.some.inj h).symm⟩))
      · cases h
  | replay id m sk =>
      simp only [step] at h
      split at h
      · rename_i a ha
        exact Or.inr (Or.inr (Or.inr (Or.inl ⟨id, m, sk, a, rfl, ha, (Option.some.inj h).symm⟩)))
      · cases h
  | raise o t p =>
      simp only [step] at h
      split at h
      · rename_i a views ho
        refine Or.inr (Or.inr (Or.inr (Or.inr (Or.inl ⟨o, t, p, a, views, rfl, ho, ?_⟩))))
        split at h
        · rename_i a' ha'
          exact Or.inl ⟨a', ha', (Option.some.inj h).symm⟩
        · rename_i a' ha'
          exact Or.inr ⟨a', ha', (Option.some.inj h).symm⟩
      · cases h
  | save o =>
      simp only [step] at h
      split at h
      · rename_i a views ho
        exact Or.inr (Or.inr (Or.inr (Or.inr (Or.inr (Or.inl
          ⟨o, a, views, rfl, ho, (Option.some.inj h).symm⟩)))))
      · cases h
  | complete o fault drop =>
      simp only [step] at h
      split at h
      · rename_i a call views ho
        exact Or.inr (Or.inr (Or.inr (Or.inr (Or.inr (Or.inr
          ⟨o, fault, drop, a, call, views, rfl, ho, (Option.some.inj h).symm⟩)))))
      · cases h

/-- How an awaited call ends: it failed and nothing changed but the phase, it took
    effect and then failed, or it succeeded. -/
theorem completeCall_cases (T : String) (w : World Id S P) (o : Nat) (obj : Obj Id S P)
    (call : Awaiting Id P) (fault : Fault) (drop : Bool) :
    (w.completeCall T o obj call fault drop = w.setObject o { obj with saving := none } ∧
      (fault = .noEffect ∨ resume T drop w.store obj.agg call = none)) ∨
    (∃ store agg next, resume T drop w.store obj.agg call = some (store, agg, next) ∧
      ((fault = .afterEffect ∧ w.completeCall T o obj call fault drop =
          ⟨store, w.objects.set o { obj with saving := none }, w.commitLog obj call⟩) ∨
        (fault = .none ∧ w.completeCall T o obj call fault drop =
          ⟨store, w.objects.set o ⟨agg, next, if next.isNone then [] else obj.computedFrom⟩,
            w.commitLog obj call⟩))) := by
  cases hr : resume T drop w.store obj.agg call with
  | none =>
      left
      cases fault <;> simp [World.completeCall, hr]
  | some r =>
      obtain ⟨store, agg, next⟩ := r
      cases fault with
      | noEffect =>
          left
          simp [World.completeCall]
      | afterEffect =>
          right
          exact ⟨store, agg, next, rfl, Or.inl ⟨rfl, by simp [World.completeCall, hr]⟩⟩
      | none =>
          right
          exact ⟨store, agg, next, rfl, Or.inr ⟨rfl, by simp [World.completeCall, hr]⟩⟩

end Inversion

end Milde.EventStore
