/-
  Milde.EventStore.RecordedStore

  The event store as the server has it: streams under their names, in which every event is
  recorded as the data and the metadata that `EventConverter` makes of it.

  `Milde.EventStore.Processes` keeps the events themselves, the streams of the aggregates
  by id and the entries of `T-Ids` as ids.  Nothing is lost by that: as long as the events
  that commands raise can be read back, the two take the same runs, and a stream always has
  the recorded form of what the other one has (`recorded_simulates`).

  An event that cannot be read back is in `T` before anybody finds out, even if its save is
  refused then, and the events of `T` cannot be read again (`getAggregateEvents_iff`).
-/
import Milde.EventStore.EventConverter
import Milde.EventStore.Processes

namespace Milde.EventStore

open Milde.EventSourcing

variable {Id S P : Type}

-- ============================================================================
-- Recorded events
-- ============================================================================

/-- An entry of a stream: an event, whose own `EventId` nobody reads, or an entry of `T-Ids`,
    an `EventId` without data and metadata. -/
inductive RecordedEvent (Id : Type) where
  | event (eventData : EventData Text)
  | id (eventId : Id)
deriving DecidableEq

/-- What the store works with: `JsonConvert`, the assemblies that can be loaded, and
    `Guid.ToString`. -/
structure Recorder (Id P : Type) where
  json : JsonConvert Id P
  assemblies : List Assembly
  guid : Id → String
  guid_injective : Function.Injective guid
  guid_ne_ids : ∀ id, guid id ≠ "Ids"

/-- The streams of the server by their names. -/
abbrev Streams (Id : Type) := String → List (RecordedEvent Id)

/-- `SaveEvents`. -/
def Streams.save (streams : Streams Id) (name : String) (events : List (RecordedEvent Id))
    (expectedVersion : Int) : Option (Streams Id) :=
  (saveEvents (streams name) events expectedVersion).map (Function.update streams name)

namespace Recorder

variable (k : Recorder Id P)

def record (event : AggregateEvent Id P) : RecordedEvent Id := .event (k.json.toEventData event)

/-- `FromEventData(e.Event)`; `none` when it throws or has the value null, which throws as
    soon as the version is looked at.  An entry without metadata cannot be decoded. -/
def read : RecordedEvent Id → Option (AggregateEvent Id P)
  | .event eventData =>
      match k.json.fromEventData k.assemblies eventData with
      | .ok event => event
      | .error _ => none
  | .id _ => none

/-- `events.Select(e => FromEventData(e.Event)).ToList()`. -/
def readAll (recorded : List (RecordedEvent Id)) : Option (List (AggregateEvent Id P)) :=
  recorded.mapM k.read

/-- `UpdateAggregate`: all events are decoded before the first one is applied. -/
def updateAggregate [DecidableEq Id] (d : Domain Id S P) (stream : List (RecordedEvent Id))
    (a : Aggregate Id S P) : Outcome (Aggregate Id S P) :=
  if a.version < 0 then .threw a
  else
    match k.readAll (getEvents stream a.version.toInt.toNat) with
    | none => .threw a
    | some events => a.applyEvents d (orderByVersion events)

/-- `GetAggregateEvents` on the stream `T`. -/
def getAggregateEvents (stream : List (RecordedEvent Id)) : Option (List (AggregateEvent Id P)) :=
  k.readAll (getEvents stream 0)

/-- The awaited call of `SaveAggregate` takes effect, as in `resume`. -/
def resume [DecidableEq Id] (T : String) (drop : Bool) (streams : Streams Id)
    (a : Aggregate Id S P) :
    Awaiting Id P → Option (Streams Id × Aggregate Id S P × Option (Awaiting Id P))
  | .category events =>
      (streams.save T (events.map k.record) ExpectedVersion.any).map fun streams =>
        (streams, a, some (.aggregate events (expectedVersion a events)))
  | .aggregate events version =>
      (streams.save (getAggregateStream T (k.guid a.id)) (events.map k.record) version).map
        fun streams => (streams, a, some .ids)
  | .ids =>
      let name := getAggregateIDsStream T
      -- the server may drop an event id that the stream has
      let dropped := drop && decide (.id a.id ∈ streams name)
      (streams.save name (if dropped then [] else [.id a.id]) ExpectedVersion.any).map
        fun streams => (streams, publishNext a (eventsByType a.getUncommitedChanges))
  | .bus eventType events rest =>
      (streams.save (getStream eventType) (events.map k.record) ExpectedVersion.any).map
        fun streams => (streams, publishNext a rest)

end Recorder

-- ============================================================================
-- Processes over the recorded streams
-- ============================================================================

/-- An aggregate object held by some process. -/
structure Held (Id S P : Type) where
  agg : Aggregate Id S P
  saving : Option (Awaiting Id P)

/-- The streams and the objects.  `accepted` is a ghost: the events that the streams of the
    aggregates have accepted, of which Redis has its snapshots. -/
structure RecordedWorld (Id S P : Type) where
  streams : Streams Id
  accepted : Id → List (AggregateEvent Id P)
  objects : List (Held Id S P)

namespace RecordedWorld

/-- The streams empty and no objects. -/
def init : RecordedWorld Id S P := ⟨fun _ => [], fun _ => [], []⟩

def addObject (r : RecordedWorld Id S P) (a : Aggregate Id S P) : RecordedWorld Id S P :=
  { r with objects := r.objects ++ [⟨a, none⟩] }

def setObject (r : RecordedWorld Id S P) (o : Nat) (obj : Held Id S P) : RecordedWorld Id S P :=
  { r with objects := r.objects.set o obj }

variable [DecidableEq Id]

/-- The ghost after a call that took effect. -/
def accept (r : RecordedWorld Id S P) (a : Aggregate Id S P) :
    Awaiting Id P → Id → List (AggregateEvent Id P)
  | .aggregate events _ => Function.update r.accepted a.id (r.accepted a.id ++ events)
  | _ => r.accepted

/-- The awaited call of the object at `o` ends. -/
def completeCall (k : Recorder Id P) (T : String) (r : RecordedWorld Id S P) (o : Nat)
    (a : Aggregate Id S P) (call : Awaiting Id P) (fault : Fault) (drop : Bool) :
    RecordedWorld Id S P :=
  match fault, k.resume T drop r.streams a call with
  | .noEffect, _ => r.setObject o ⟨a, none⟩
  | _, none => r.setObject o ⟨a, none⟩
  | .afterEffect, some (streams, _, _) => ⟨streams, r.accept a call, r.objects.set o ⟨a, none⟩⟩
  | .none, some (streams, a', next) => ⟨streams, r.accept a call, r.objects.set o ⟨a', next⟩⟩

/-- One step of the system; `none` when the label is not enabled. -/
def step (k : Recorder Id P) (d : Domain Id S P) (T : String) (r : RecordedWorld Id S P) :
    Label Id P → Option (RecordedWorld Id S P)
  | .construct id shardKey => some (r.addObject (Aggregate.new d id shardKey))
  | .deserialize id length shardKey =>
      (snapshotOf d id shardKey ((r.accepted id).take length)).map r.addObject
  | .rehydrate id length upTo shardKey =>
      let stream := (r.streams (getAggregateStream T (k.guid id))).take upTo
      (snapshotOf d id shardKey (((r.accepted id).take upTo).take length)).bind fun a =>
        match k.updateAggregate d stream a with
        | .returned a' => some (r.addObject a')
        | .threw _ => none
  | .replay id upTo shardKey =>
      (k.getAggregateEvents ((r.streams T).take upTo)).bind fun events =>
        match (Aggregate.new d id shardKey).applyEvents d
            (orderByVersion (eventsOf id events)) with
        | .returned a => some (r.addObject a)
        | .threw _ => none
  | .raise o type payload =>
      match r.objects[o]? with
      | some ⟨a, none⟩ => some (r.setObject o ⟨(a.applyEvent d (a.nextEvent type payload)).object,
          none⟩)
      | _ => none
  | .save o =>
      match r.objects[o]? with
      | some ⟨a, none⟩ => some (r.setObject o ⟨a, some (beginSave a)⟩)
      | _ => none
  | .complete o fault drop =>
      match r.objects[o]? with
      | some ⟨a, some call⟩ => some (r.completeCall k T o a call fault drop)
      | _ => none

end RecordedWorld

/-- The event can be read back, and its class has the name of an identifier. -/
def Recorder.Readable (k : Recorder Id P) (e : AggregateEvent Id P) : Prop :=
  Decodes k.json k.assemblies e ∧ '-' ∉ e.type.name.toList

/-- The event that the step raises, if it raises one, can be read back. -/
def RecordedWorld.RaisesReadable (k : Recorder Id P) (r : RecordedWorld Id S P) :
    Label Id P → Prop
  | .raise o type payload =>
      ∀ obj, r.objects[o]? = some obj → k.Readable (obj.agg.nextEvent type payload)
  | _ => True

-- ============================================================================
-- Which events there are
-- ============================================================================

/-- Every event that the running save has still to append; a group of the event bus has one,
    of its own class. -/
def Awaiting.All (p : AggregateEvent Id P → Prop) : Awaiting Id P → Prop
  | .category events => ∀ e ∈ events, p e
  | .aggregate events _ => ∀ e ∈ events, p e
  | .ids => True
  | .bus eventType events rest => ∀ g ∈ (eventType, events) :: rest,
      (∃ e, p e ∧ e.type = g.1) ∧ ∀ e ∈ g.2, p e

/-- What the call appends to `T`: the batch of the save, whether the save is refused
    afterwards or not, or what the event bus publishes for a class that is called `T`. -/
def Awaiting.toCategory (T : String) : Awaiting Id P → List (AggregateEvent Id P)
  | .category events => events
  | .aggregate _ _ => []
  | .ids => []
  | .bus eventType events _ => if getStream eventType = T then events else []

/-- Every event of the store. -/
structure Store.All (p : AggregateEvent Id P → Prop) (s : Store Id P) : Prop where
  typed : ∀ name, ∀ e ∈ s.typed name, p e
  aggregate : ∀ id, ∀ e ∈ s.aggregate id, p e

/-- Every event of the store, of the changes of an object and of a running save. -/
structure World.All (p : AggregateEvent Id P → Prop) (w : World Id S P) : Prop where
  store : w.store.All p
  changes : ∀ obj ∈ w.objects, ∀ e ∈ obj.agg.changes, p e
  saving : ∀ obj ∈ w.objects, ∀ call, obj.saving = some call → call.All p

section Events

variable {p : AggregateEvent Id P → Prop} {d : Domain Id S P} {T : String}
  {a a' : Aggregate Id S P} {s s' : Store Id P} {w w' : World Id S P}

/-- The groups of the changes have the events of the changes. -/
theorem all_publishNext {groups : List (ClrType × List (AggregateEvent Id P))}
    {call : Awaiting Id P}
    (h : ∀ g ∈ groups, (∃ e, p e ∧ e.type = g.1) ∧ ∀ e ∈ g.2, p e)
    (hnext : (publishNext a groups).2 = some call) : call.All p := by
  cases groups with
  | nil => cases hnext
  | cons g rest =>
      cases hnext
      exact h

theorem Store.All.appendTyped (h : s.All p) {name : String} {events : List (AggregateEvent Id P)}
    (hevents : ∀ e ∈ events, p e) : (s.appendTyped name events).All p := by
  refine ⟨fun name' e he => ?_, h.aggregate⟩
  by_cases hname : name' = name
  · subst hname
    rw [Store.appendTyped_typed_self] at he
    exact (List.mem_append.mp he).elim (h.typed _ e) (hevents e)
  · rw [Store.appendTyped_typed_ne s hname] at he
    exact h.typed name' e he

/-- A new object joins those that are there. -/
theorem World.All.addObject (h : w.All p) (hchanges : ∀ e ∈ a.changes, p e)
    (views : List (View S)) : (w.addObject a views).All p := by
  refine ⟨h.store, fun obj hobj => ?_, fun obj hobj => ?_⟩
  · rcases List.mem_append.mp hobj with hobj | hobj
    · exact h.changes obj hobj
    · obtain rfl := List.mem_singleton.mp hobj
      exact hchanges
  · rcases List.mem_append.mp hobj with hobj | hobj
    · exact h.saving obj hobj
    · obtain rfl := List.mem_singleton.mp hobj
      intro call hcall
      cases hcall

/-- An object changes while the store goes on. -/
theorem World.All.setObject (h : w.All p) {o : Nat} {obj : Obj Id S P}
    {commits : List (Commit Id S P)} (hstore : s'.All p) (hchanges : ∀ e ∈ obj.agg.changes, p e)
    (hsaving : ∀ call, obj.saving = some call → call.All p) :
    World.All p ⟨s', w.objects.set o obj, commits⟩ := by
  refine ⟨hstore, fun other hother => ?_, fun other hother => ?_⟩
  · rcases List.mem_or_eq_of_mem_set hother with hother | rfl
    · exact h.changes other hother
    · exact hchanges
  · rcases List.mem_or_eq_of_mem_set hother with hother | rfl
    · exact h.saving other hother
    · exact hsaving

theorem World.all_init : (World.init : World Id S P).All p where
  store := ⟨fun _ _ he => (List.not_mem_nil he).elim, fun _ _ he => (List.not_mem_nil he).elim⟩
  changes _ h := by cases h
  saving _ h := by cases h

variable [DecidableEq Id]

/-- An event that is applied joins the changes, or it does not. -/
theorem mem_changes_applyEvent {e e' : AggregateEvent Id P}
    (h : e' ∈ (a.applyEvent d e).object.changes) : e' ∈ a.changes ∨ e' = e := by
  have hrecord : ∀ b : Aggregate Id S P, e' ∈ (b.record d e).object.changes →
      e' ∈ b.changes ∨ e' = e := by
    intro b hb
    unfold Aggregate.record at hb
    split at hb
    · simpa using List.mem_append.mp hb
    · exact Or.inl hb
  unfold Aggregate.applyEvent at h
  split at h
  · exact Or.inl h
  · split at h
    · exact Or.inl h
    · dsimp only at h
      split at h
      · exact hrecord { a with version := e.version, shardKey := e.shardKey } h
      · split at h
        · exact Or.inl h
        · exact hrecord { a with version := e.version } h

theorem mem_changes_applyEvents {events : List (AggregateEvent Id P)} {e : AggregateEvent Id P}
    (h : a.applyEvents d events = .returned a') (he : e ∈ a'.changes) :
    e ∈ a.changes ∨ e ∈ events := by
  induction events generalizing a with
  | nil =>
      cases h
      exact Or.inl he
  | cons e' events ih =>
      cases hb : a.applyEvent d e' with
      | threw b => simp [Aggregate.applyEvents, hb] at h
      | returned b =>
          rw [Aggregate.applyEvents_cons_of_returned hb] at h
          rcases ih h with hmem | hmem
          · have hmem : e ∈ (a.applyEvent d e').object.changes := by
              rw [hb]
              exact hmem
            rcases mem_changes_applyEvent hmem with hmem | rfl
            · exact Or.inl hmem
            · exact Or.inr List.mem_cons_self
          · exact Or.inr (List.mem_cons_of_mem _ hmem)

theorem Store.All.setAggregate (h : s.All p) {id : Id} {events : List (AggregateEvent Id P)}
    (hevents : ∀ e ∈ events, p e) :
    (s.setAggregate id (s.aggregate id ++ events)).All p := by
  refine ⟨h.typed, fun id' e he => ?_⟩
  by_cases hid : id' = id
  · subst hid
    rw [Store.setAggregate_self] at he
    exact (List.mem_append.mp he).elim (h.aggregate _ e) (hevents e)
  · rw [Store.setAggregate_ne s hid] at he
    exact h.aggregate id' e he

/-- A call that takes effect appends what it awaits, and goes on with the rest or with the
    changes. -/
theorem Store.All.resume (h : s.All p) {drop : Bool} {call : Awaiting Id P}
    {next : Option (Awaiting Id P)} (hchanges : ∀ e ∈ a.changes, p e) (hcall : call.All p)
    (hresume : resume T drop s a call = some (s', a', next)) :
    s'.All p ∧ (∀ e ∈ a'.changes, p e) ∧ ∀ call', next = some call' → call'.All p := by
  have hagg : ∀ e ∈ a'.changes, p e := by
    intro e he
    rcases resume_agg hresume with ⟨rfl, -⟩ | ⟨rfl, -⟩
    · exact hchanges e he
    · cases he
  cases call with
  | category events =>
      cases hresume
      refine ⟨h.appendTyped hcall, hagg, ?_⟩
      rintro call' hcall'
      cases hcall'
      exact hcall
  | aggregate events version =>
      obtain ⟨stream, hsave, rfl, rfl, rfl⟩ := resume_aggregate hresume
      rw [saveEvents_eq_some hsave]
      refine ⟨h.setAggregate hcall, hagg, ?_⟩
      rintro call' hcall'
      cases hcall'
      trivial
  | ids =>
      obtain ⟨rfl, hnext⟩ := resume_ids hresume
      refine ⟨⟨?_, ?_⟩, hagg, fun call' hcall' => ?_⟩
      · simpa using h.typed
      · simpa using h.aggregate
      · refine all_publishNext (a := a) ?_ ((congrArg Prod.snd hnext).trans hcall')
        rintro ⟨t, group⟩ hg
        obtain ⟨hne, hgroup⟩ := group_spec hg
        obtain ⟨e, he⟩ := List.exists_mem_of_ne_nil group hne
        exact ⟨⟨e, hchanges e (hgroup e he).1, (hgroup e he).2⟩,
          fun e he => hchanges e (hgroup e he).1⟩
  | bus t events rest =>
      obtain ⟨rfl, hnext⟩ := resume_bus hresume
      refine ⟨h.appendTyped (hcall _ List.mem_cons_self).2, hagg, fun call' hcall' => ?_⟩
      exact all_publishNext (a := a) (fun g hg => hcall g (List.mem_cons_of_mem _ hg))
        ((congrArg Prod.snd hnext).trans hcall')

/-- Objects that are read back have no changes. -/
theorem snapshotOf_changes {id : Id} {sk : Int32} {evs : List (AggregateEvent Id P)}
    (h : snapshotOf d id sk evs = some a) : a.changes = [] := by
  unfold snapshotOf at h
  split at h
  · cases h
    rfl
  · cases h

theorem mem_changes_updateAggregate {stream : List (AggregateEvent Id P)}
    {e : AggregateEvent Id P} (h : updateAggregate d stream a = .returned a')
    (he : e ∈ a'.changes) : e ∈ a.changes ∨ e ∈ stream := by
  unfold updateAggregate at h
  split at h
  · cases h
  · rw [getEvents_eq_drop] at h
    rcases mem_changes_applyEvents h he with he | he
    · exact Or.inl he
    · exact Or.inr (List.mem_of_mem_drop (mem_orderByVersion.mp he))

/-- **Events come from commands.** What holds of every event so far and of the event that a
    step raises, if it raises one, holds of every event after it. -/
theorem World.All.step (h : w.All p) {l : Label Id P}
    (hraise : ∀ o t payload, l = .raise o t payload → ∀ obj, w.objects[o]? = some obj →
      p (obj.agg.nextEvent t payload))
    (hstep : EventStore.step d T w l = some w') : w'.All p := by
  rcases step_cases hstep with ⟨id, sk, -, rfl⟩ | ⟨id, n, sk, a, -, ha, rfl⟩ |
    ⟨id, n, m, sk, a, a', -, ha, ha', rfl⟩ | ⟨id, m, sk, a, -, ha, rfl⟩ |
    ⟨o, t, payload, a, views, hl, ho, hraised⟩ | ⟨o, a, views, -, ho, rfl⟩ |
    ⟨o, fault, drop, a, call, views, -, ho, rfl⟩
  · refine h.addObject (fun e he => ?_) _
    cases he
  · refine h.addObject (fun e he => ?_) _
    rw [snapshotOf_changes ha] at he
    cases he
  · refine h.addObject (fun e he => ?_) _
    rcases mem_changes_updateAggregate ha' he with he | he
    · rw [snapshotOf_changes ha] at he
      cases he
    · exact h.store.aggregate id e (List.mem_of_mem_take he)
  · refine h.addObject (fun e he => ?_) _
    rcases mem_changes_applyEvents ha he with he | he
    · cases he
    · have he := (List.mem_filter.mp (mem_orderByVersion.mp he)).1
      exact h.store.typed T e (List.mem_of_mem_take he)
  · have hobj := List.mem_of_getElem? ho
    have hchanges : ∀ e ∈ (a.applyEvent d (a.nextEvent t payload)).object.changes, p e := by
      intro e he
      rcases mem_changes_applyEvent he with he | rfl
      · exact h.changes _ hobj e he
      · exact hraise o t payload hl _ ho
    rcases hraised with ⟨a', ha', rfl⟩ | ⟨a', ha', rfl⟩ <;> rw [ha'] at hchanges <;>
      exact h.setObject h.store hchanges (fun call hcall => by cases hcall)
  · have hchanges := h.changes _ (List.mem_of_getElem? ho)
    refine h.setObject h.store hchanges (fun call hcall => ?_)
    cases hcall
    exact hchanges
  · have hobj := List.mem_of_getElem? ho
    have hchanges := h.changes _ hobj
    have hcall := h.saving _ hobj call rfl
    rcases completeCall_cases T w o ⟨a, some call, views⟩ call fault drop with
      ⟨heq, -⟩ | ⟨s', a', next, hresume, hend⟩
    · rw [heq]
      exact h.setObject h.store hchanges (fun call hcall => by cases hcall)
    · obtain ⟨hstore, hagg, hnext⟩ := h.store.resume hchanges hcall hresume
      rcases hend with ⟨-, heq⟩ | ⟨-, heq⟩ <;> rw [heq]
      · exact h.setObject hstore hchanges (fun call hcall => by cases hcall)
      · exact h.setObject hstore hagg hnext

end Events

-- ============================================================================
-- What the server has of the events
-- ============================================================================

/-- The server has the recorded form of every stream, under the name that the source gives
    to it. -/
structure Recorder.Holds (k : Recorder Id P) (T : String) (streams : Streams Id)
    (s : Store Id P) : Prop where
  typed : ∀ name, '-' ∉ name.toList → streams name = (s.typed name).map k.record
  aggregate : ∀ id, streams (getAggregateStream T (k.guid id)) = (s.aggregate id).map k.record
  ids : streams (getAggregateIDsStream T) = s.ids.map .id

section Streams

variable {k : Recorder Id P} {T : String} {streams : Streams Id} {s : Store Id P}

/-- A recorded event that can be read back reads as it was. -/
theorem Recorder.readAll_record {events : List (AggregateEvent Id P)}
    (h : ∀ e ∈ events, k.Readable e) : k.readAll (events.map k.record) = some events := by
  induction events with
  | nil => rfl
  | cons e events ih =>
      obtain ⟨⟨hdecodes, -⟩, hrest⟩ := List.forall_mem_cons.mp h
      have hread : k.read (k.record e) = some e := by
        rw [Recorder.record, Recorder.read, show _ = _ from hdecodes]
      have htail : (events.map k.record).mapM k.read = some events := ih hrest
      rw [Recorder.readAll, List.map_cons, List.mapM_cons, hread, htail]
      rfl

/-- A stream can be read iff each entry can. -/
theorem Recorder.readAll_iff {recorded : List (RecordedEvent Id)} :
    (∃ events, k.readAll recorded = some events) ↔ ∀ x ∈ recorded, k.read x ≠ none := by
  induction recorded with
  | nil => exact iff_of_true ⟨[], rfl⟩ (fun x hx => (List.not_mem_nil hx).elim)
  | cons x recorded ih =>
      rw [List.forall_mem_cons, ← ih]
      cases hx : k.read x with
      | none =>
          refine iff_of_false ?_ (fun h => h.1 rfl)
          rintro ⟨events, h⟩
          rw [Recorder.readAll, List.mapM_cons, hx] at h
          cases h
      | some e =>
          refine ⟨?_, ?_⟩
          · rintro ⟨events, h⟩
            rw [Recorder.readAll, List.mapM_cons, hx] at h
            have h : ((k.readAll recorded).bind fun tail => some (e :: tail)) = some events := h
            obtain ⟨tail, htail, -⟩ := Option.bind_eq_some_iff.mp h
            exact ⟨Option.some_ne_none e, tail, htail⟩
          · rintro ⟨-, tail, htail⟩
            refine ⟨e :: tail, ?_⟩
            have htail : recorded.mapM k.read = some tail := htail
            rw [Recorder.readAll, List.mapM_cons, hx, htail]
            rfl

/-- Whether the server accepts a batch depends on the number of events in the stream only. -/
theorem saveEvents_map {α β : Type} (f : α → β) (stream events : List α) (version : Int) :
    saveEvents (stream.map f) (events.map f) version =
      (saveEvents stream events version).map (List.map f) := by
  unfold saveEvents AppendLog.appendAt
  rw [List.length_map]
  split
  · rw [Option.map_some, List.map_append]
  · split
    · rw [Option.map_some, List.map_append]
    · rfl

theorem Streams.save_any (name : String) (events : List (RecordedEvent Id)) :
    streams.save name events ExpectedVersion.any =
      some (Function.update streams name (streams name ++ events)) := by
  rw [Streams.save, saveEvents, if_pos rfl, Option.map_some]

/-- The streams of a class and of the aggregates have different names. -/
theorem Recorder.aggregate_ne_typed {name : String} (hname : '-' ∉ name.toList) (id : Id) :
    getAggregateStream T (k.guid id) ≠ name :=
  (@streams_apart T name hname _ (k.guid id) (k.guid_ne_ids id)).1.symm

theorem Recorder.aggregate_ne_ids (id : Id) :
    getAggregateStream T (k.guid id) ≠ getAggregateIDsStream T := by
  have hname : '-' ∉ "".toList := List.not_mem_nil
  exact (@streams_apart T "" hname _ (k.guid id) (k.guid_ne_ids id)).2.2.1

theorem Recorder.aggregate_inj {id id' : Id}
    (h : getAggregateStream T (k.guid id) = getAggregateStream T (k.guid id')) : id = id' := by
  have hname : '-' ∉ "".toList := List.not_mem_nil
  exact k.guid_injective ((streams_apart hname (k.guid_ne_ids id)).2.2.2 h)

theorem ids_ne_typed {name : String} (hname : '-' ∉ name.toList) :
    getAggregateIDsStream T ≠ name :=
  (@streams_apart T name hname "" "" (by decide)).2.1.symm

/-- An append to the stream of a class. -/
theorem Recorder.Holds.appendTyped (h : k.Holds T streams s) {name : String}
    (hname : '-' ∉ name.toList) (events : List (AggregateEvent Id P)) :
    k.Holds T (Function.update streams name (streams name ++ events.map k.record))
      (s.appendTyped name events) := by
  refine ⟨fun name' hname' => ?_, fun id => ?_, ?_⟩
  · by_cases heq : name' = name
    · subst heq
      rw [Function.update_self, Store.appendTyped_typed_self, h.typed _ hname, List.map_append]
    · rw [Function.update_of_ne heq, Store.appendTyped_typed_ne s heq, h.typed _ hname']
  · rw [Function.update_of_ne (Recorder.aggregate_ne_typed hname id)]
    exact h.aggregate id
  · rw [Function.update_of_ne (ids_ne_typed hname)]
    exact h.ids

theorem Recorder.getAggregateEvents_record {stream : List (AggregateEvent Id P)}
    (hstream : ∀ e ∈ stream, k.Readable e) :
    k.getAggregateEvents (stream.map k.record) = some stream := by
  rw [Recorder.getAggregateEvents, getEvents_eq_drop, List.drop_zero, readAll_record hstream]

variable [DecidableEq Id]

/-- An accepted append to the stream of an aggregate. -/
theorem Recorder.Holds.setAggregate (h : k.Holds T streams s) (id : Id)
    (stream : List (AggregateEvent Id P)) :
    k.Holds T (Function.update streams (getAggregateStream T (k.guid id)) (stream.map k.record))
      (s.setAggregate id stream) := by
  refine ⟨fun name hname => ?_, fun id' => ?_, ?_⟩
  · rw [Function.update_of_ne (Recorder.aggregate_ne_typed hname id).symm]
    exact h.typed name hname
  · by_cases hid : id' = id
    · subst hid
      rw [Function.update_self, Store.setAggregate_self]
    · rw [Function.update_of_ne (fun heq => hid (Recorder.aggregate_inj heq)),
        Store.setAggregate_ne s hid, h.aggregate]
  · rw [Function.update_of_ne (Recorder.aggregate_ne_ids id).symm]
    exact h.ids

/-- An append to `T-Ids`, which the server may drop. -/
theorem Recorder.Holds.appendId (h : k.Holds T streams s) (drop : Bool) (id : Id) :
    k.Holds T (Function.update streams (getAggregateIDsStream T)
      (streams (getAggregateIDsStream T) ++
        if drop && decide (.id id ∈ streams (getAggregateIDsStream T)) then [] else [.id id]))
      (s.appendId drop id) := by
  refine ⟨fun name hname => ?_, fun id' => ?_, ?_⟩
  · rw [Function.update_of_ne (ids_ne_typed hname).symm, Store.appendId_typed]
    exact h.typed name hname
  · rw [Function.update_of_ne (Recorder.aggregate_ne_ids id'), Store.appendId_aggregate]
    exact h.aggregate id'
  · have hmem : RecordedEvent.id id ∈ s.ids.map RecordedEvent.id ↔ id ∈ s.ids := by
      simp only [List.mem_map, RecordedEvent.id.injEq, exists_eq_right]
    rw [Function.update_self, h.ids, Store.appendId]
    simp only [hmem]
    split
    · rw [List.append_nil]
    · rw [List.map_append, List.map_singleton]

/-- **One call.** The server refuses and accepts the same calls, and has recorded what they
    append. -/
theorem Recorder.Holds.resume (h : k.Holds T streams s) (hT : '-' ∉ T.toList) (drop : Bool)
    (a : Aggregate Id S P) {call : Awaiting Id P} (hcall : call.All k.Readable) :
    Option.Rel (fun x y => k.Holds T x.1 y.1 ∧ x.2 = y.2) (k.resume T drop streams a call)
      (EventStore.resume T drop s a call) := by
  cases call with
  | category events =>
      rw [Recorder.resume, Streams.save_any]
      exact .some ⟨h.appendTyped hT events, rfl⟩
  | aggregate events version =>
      rw [Recorder.resume, Streams.save, h.aggregate, saveEvents_map, EventStore.resume]
      cases hsave : saveEvents (s.aggregate a.id) events version with
      | none => exact .none
      | some stream => exact .some ⟨h.setAggregate a.id stream, rfl⟩
  | ids =>
      rw [Recorder.resume, Streams.save_any]
      exact .some ⟨h.appendId drop a.id, rfl⟩
  | bus t events rest =>
      obtain ⟨⟨e, ⟨-, hname⟩, rfl⟩, -⟩ := hcall _ List.mem_cons_self
      rw [Recorder.resume, Streams.save_any]
      exact .some ⟨h.appendTyped hname events, rfl⟩

/-- What is read of a stream are its events. -/
theorem Recorder.updateAggregate_record {d : Domain Id S P} {a : Aggregate Id S P}
    {stream : List (AggregateEvent Id P)} (hstream : ∀ e ∈ stream, k.Readable e) :
    k.updateAggregate d (stream.map k.record) a = EventStore.updateAggregate d stream a := by
  have htail : ∀ e ∈ stream.drop a.version.toInt.toNat, k.Readable e :=
    fun e he => hstream e (List.mem_of_mem_drop he)
  rw [Recorder.updateAggregate, EventStore.updateAggregate, getEvents_eq_drop, getEvents_eq_drop,
    ← List.map_drop, readAll_record htail]

end Streams

-- ============================================================================
-- The two systems side by side
-- ============================================================================

/-- The object without the ghost. -/
def Obj.held (obj : Obj Id S P) : Held Id S P := ⟨obj.agg, obj.saving⟩

/-- The server has the recorded form of the streams, the processes hold the same objects,
    and every event can be read back. -/
structure RecordedWorld.Simulates (k : Recorder Id P) (T : String) (r : RecordedWorld Id S P)
    (w : World Id S P) : Prop where
  streams : k.Holds T r.streams w.store
  accepted : r.accepted = w.store.aggregate
  objects : r.objects = w.objects.map Obj.held
  readable : w.All k.Readable

namespace RecordedWorld

variable {k : Recorder Id P} {d : Domain Id S P} {T : String} {r : RecordedWorld Id S P}
  {w w' : World Id S P} {l : Label Id P}

theorem Simulates.getElem? (h : r.Simulates k T w) (o : Nat) :
    r.objects[o]? = (w.objects[o]?).map Obj.held := by
  rw [h.objects, List.getElem?_map]

/-- A new object joins those on both sides. -/
theorem Simulates.addObject (h : r.Simulates k T w) {a : Aggregate Id S P} {views : List (View S)}
    (hreadable : (w.addObject a views).All k.Readable) :
    Simulates k T (r.addObject a) (w.addObject a views) := by
  refine ⟨h.streams, h.accepted, ?_, hreadable⟩
  show r.objects ++ [⟨a, none⟩] = List.map Obj.held (w.objects ++ [⟨a, none, views⟩])
  rw [h.objects, List.map_append]
  rfl

/-- An object changes on both sides. -/
theorem Simulates.setObject (h : r.Simulates k T w) {streams : Streams Id} {s : Store Id P}
    (hstreams : k.Holds T streams s) {o : Nat} {obj : Obj Id S P}
    {commits : List (Commit Id S P)}
    (hreadable : World.All k.Readable ⟨s, w.objects.set o obj, commits⟩) :
    Simulates k T ⟨streams, s.aggregate, r.objects.set o obj.held⟩
      ⟨s, w.objects.set o obj, commits⟩ := by
  refine ⟨hstreams, rfl, ?_, hreadable⟩
  show r.objects.set o obj.held = (w.objects.set o obj).map Obj.held
  rw [h.objects, List.map_set]

theorem simulates_init : Simulates k T (init : RecordedWorld Id S P) World.init where
  streams := ⟨fun _ _ => rfl, fun _ => rfl, rfl⟩
  accepted := rfl
  objects := rfl
  readable := World.all_init

variable [DecidableEq Id]

/-- The ghost keeps up with the streams. -/
theorem Simulates.accept (h : r.Simulates k T w) {drop : Bool} {a a' : Aggregate Id S P}
    {call : Awaiting Id P} {s : Store Id P} {next : Option (Awaiting Id P)}
    (hresume : resume T drop w.store a call = some (s, a', next)) :
    r.accept a call = s.aggregate := by
  cases call with
  | category events =>
      cases hresume
      exact h.accepted
  | aggregate events version =>
      obtain ⟨stream, hsave, rfl, -, -⟩ := resume_aggregate hresume
      rw [RecordedWorld.accept, h.accepted, saveEvents_eq_some hsave]
      rfl
  | ids =>
      obtain ⟨rfl, -⟩ := resume_ids hresume
      rw [Store.appendId_aggregate]
      exact h.accepted
  | bus t events rest =>
      obtain ⟨rfl, -⟩ := resume_bus hresume
      exact h.accepted

/-- The awaited call ends the same way on both sides. -/
theorem Simulates.completeCall (h : r.Simulates k T w) (hT : '-' ∉ T.toList) {o : Nat}
    {a : Aggregate Id S P} {call : Awaiting Id P} {views : List (View S)} {fault : Fault}
    {drop : Bool} (ho : w.objects[o]? = some ⟨a, some call, views⟩)
    (hreadable : (w.completeCall T o ⟨a, some call, views⟩ call fault drop).All k.Readable) :
    Simulates k T (r.completeCall k T o a call fault drop)
      (w.completeCall T o ⟨a, some call, views⟩ call fault drop) := by
  have hcall := h.readable.saving _ (List.mem_of_getElem? ho) call rfl
  have hboth := h.streams.resume hT drop a hcall
  have hrefused : r.setObject o ⟨a, none⟩ =
      ⟨r.streams, w.store.aggregate, r.objects.set o ⟨a, none⟩⟩ := by
    rw [RecordedWorld.setObject, h.accepted]
  cases hresume : resume T drop w.store a call with
  | none =>
      cases hrecorded : k.resume T drop r.streams a call with
      | some x =>
          rw [hresume, hrecorded] at hboth
          cases hboth
      | none =>
          cases fault <;>
            simp only [RecordedWorld.completeCall, World.completeCall, hresume, hrecorded, hrefused]
              at hreadable ⊢ <;>
            exact h.setObject h.streams hreadable
  | some y =>
      cases hrecorded : k.resume T drop r.streams a call with
      | none =>
          rw [hresume, hrecorded] at hboth
          cases hboth
      | some x =>
          obtain ⟨streams, after⟩ := x
          obtain ⟨s, a', next⟩ := y
          rw [hresume, hrecorded] at hboth
          obtain ⟨hstreams, heq⟩ := Option.rel_some_some.mp hboth
          obtain rfl : after = (a', next) := heq
          have haccept := h.accept hresume
          cases fault with
          | noEffect =>
              simp only [RecordedWorld.completeCall, World.completeCall, hrefused] at hreadable ⊢
              exact h.setObject h.streams hreadable
          | none =>
              simp only [RecordedWorld.completeCall, World.completeCall, hresume, hrecorded,
                haccept] at hreadable ⊢
              exact h.setObject hstreams hreadable
          | afterEffect =>
              simp only [RecordedWorld.completeCall, World.completeCall, hresume, hrecorded,
                haccept] at hreadable ⊢
              exact h.setObject hstreams hreadable

/-- **One step.** Both systems take it or neither does. -/
theorem Simulates.step (h : r.Simulates k T w) (hT : '-' ∉ T.toList)
    (hraise : r.RaisesReadable k l) :
    Option.Rel (Simulates k T) (r.step k d T l) (EventStore.step d T w l) := by
  have hraised : ∀ o t payload, l = .raise o t payload → ∀ obj, w.objects[o]? = some obj →
      k.Readable (obj.agg.nextEvent t payload) := by
    rintro o t payload rfl obj hobj
    refine hraise obj.held ?_
    rw [h.getElem?, hobj, Option.map_some]
  have hall : ∀ w', EventStore.step d T w l = some w' → w'.All k.Readable :=
    fun w' hstep => h.readable.step hraised hstep
  cases l with
  | construct id sk => exact .some (h.addObject (hall _ rfl))
  | deserialize id n sk =>
      simp only [RecordedWorld.step, EventStore.step, h.accepted] at hall ⊢
      cases hsnap : snapshotOf d id sk ((w.store.aggregate id).take n) with
      | none => exact .none
      | some a =>
          rw [hsnap] at hall
          exact .some (h.addObject (hall _ rfl))
  | rehydrate id n m sk =>
      have hstream : ∀ e ∈ (w.store.aggregate id).take m, k.Readable e :=
        fun e he => h.readable.store.aggregate id e (List.mem_of_mem_take he)
      simp only [RecordedWorld.step, EventStore.step, h.accepted, h.streams.aggregate,
        ← List.map_take, Recorder.updateAggregate_record hstream] at hall ⊢
      cases hsnap : snapshotOf d id sk (((w.store.aggregate id).take m).take n) with
      | none => exact .none
      | some a =>
          simp only [hsnap, Option.bind_some] at hall ⊢
          cases hupdate : updateAggregate d ((w.store.aggregate id).take m) a with
          | threw b => exact .none
          | returned a' =>
              simp only [hupdate] at hall
              exact .some (h.addObject (hall _ rfl))
  | replay id m sk =>
      have hstream : ∀ e ∈ (w.store.typed T).take m, k.Readable e :=
        fun e he => h.readable.store.typed T e (List.mem_of_mem_take he)
      simp only [RecordedWorld.step, EventStore.step, h.streams.typed T hT, ← List.map_take,
        Recorder.getAggregateEvents_record hstream, Option.bind_some] at hall ⊢
      cases happly : (Aggregate.new d id sk).applyEvents d
          (orderByVersion (eventsOf id ((w.store.typed T).take m))) with
      | threw b => exact .none
      | returned a =>
          simp only [happly] at hall
          exact .some (h.addObject (hall _ rfl))
  | raise o t payload =>
      simp only [RecordedWorld.step, EventStore.step, h.getElem?] at hall ⊢
      rcases hobj : w.objects[o]? with - | ⟨a, - | call, views⟩
      · exact .none
      · rw [hobj] at hall
        have hset : ∀ a' views', World.All k.Readable (w.setObject o ⟨a', none, views'⟩) →
            Simulates k T (r.setObject o ⟨a', none⟩) (w.setObject o ⟨a', none, views'⟩) := by
          intro a' views' hreadable
          rw [RecordedWorld.setObject, h.accepted]
          exact h.setObject h.streams hreadable
        simp only [Option.map_some, Obj.held]
        cases happly : a.applyEvent d (a.nextEvent t payload) with
        | returned a' =>
            simp only [happly] at hall
            exact .some (hset a' _ (hall _ rfl))
        | threw a' =>
            simp only [happly] at hall
            exact .some (hset a' _ (hall _ rfl))
      · exact .none
  | save o =>
      simp only [RecordedWorld.step, EventStore.step, h.getElem?] at hall ⊢
      rcases hobj : w.objects[o]? with - | ⟨a, - | call, views⟩
      · exact .none
      · rw [hobj] at hall
        refine .some ?_
        rw [RecordedWorld.setObject, h.accepted]
        exact h.setObject h.streams (hall _ rfl)
      · exact .none
  | complete o fault drop =>
      simp only [RecordedWorld.step, EventStore.step, h.getElem?] at hall ⊢
      rcases hobj : w.objects[o]? with - | ⟨a, - | call, views⟩
      · exact .none
      · exact .none
      · rw [hobj] at hall
        exact .some (h.completeCall hT hobj (hall _ rfl))

/-- **The recorded streams are the streams.** As long as every event that is raised can be
    read back, the system over the server and the system over the events themselves take
    the same runs of the same labels: reads, saves, races and failures of calls included.
    Afterwards the processes hold the same objects, and every stream of the server has the
    recorded form of the events, each of which can be read back. -/
theorem recorded_simulates (k : Recorder Id P) (d : Domain Id S P) (hT : '-' ∉ T.toList)
    {ls : List (Label Id P)}
    (hraise : Transition.Along (step k d T) (fun r l => r.RaisesReadable k l) init ls) :
    Option.Rel (Simulates k T) (Transition.run (step k d T) init ls)
      (Transition.run (EventStore.step d T) World.init ls) :=
  Transition.run_rel (fun _ _ _ h hraise => h.step hT hraise) simulates_init hraise

-- ============================================================================
-- Events that cannot be read back
-- ============================================================================

/-- The events that a step appends to `T`: those of a call that took effect. -/
def appended (T : String) (r : RecordedWorld Id S P) : Label Id P → List (AggregateEvent Id P)
  | .complete _ .noEffect _ => []
  | .complete o _ _ =>
      match r.objects[o]? with
      | some ⟨_, some call⟩ => call.toCategory T
      | _ => []
  | _ => []

/-- No event that the step appends to `T` fails to be read back. -/
def AppendsReadable (k : Recorder Id P) (T : String) (r : RecordedWorld Id S P)
    (l : Label Id P) : Prop :=
  ∀ e ∈ r.appended T l, k.read (k.record e) ≠ none

section Unreadable

variable {r' : RecordedWorld Id S P} {streams : Streams Id} {a a' : Aggregate Id S P}

/-- What a call that takes effect does to `T`. -/
theorem resume_category {drop : Bool} {call : Awaiting Id P} {next : Option (Awaiting Id P)}
    (h : k.resume T drop r.streams a call = some (streams, a', next)) :
    streams T = r.streams T ++ (call.toCategory T).map k.record := by
  have hlonger : ∀ suffix : String, suffix.toList ≠ [] → T ++ suffix ≠ T := by
    intro suffix hne heq
    have heq : T.toList ++ suffix.toList = T.toList := by
      rw [← String.toList_append, heq]
    exact hne (List.append_right_eq_self.mp heq)
  cases call with
  | category events =>
      rw [Recorder.resume, Streams.save_any] at h
      cases h
      exact Function.update_self ..
  | aggregate events version =>
      simp only [Recorder.resume, Streams.save, Option.map_map, Option.map_eq_some_iff] at h
      obtain ⟨stream, -, h⟩ := h
      cases h
      have hne : T ≠ getAggregateStream T (k.guid a.id) := by
        rw [getAggregateStream, String.append_assoc]
        exact (hlonger _ (by simp)).symm
      rw [Awaiting.toCategory, List.map_nil, List.append_nil]
      exact Function.update_of_ne hne ..
  | ids =>
      simp only [Recorder.resume, Streams.save_any, Option.map_some, Option.some.injEq,
        Prod.mk.injEq] at h
      obtain ⟨rfl, -⟩ := h
      rw [Awaiting.toCategory, List.map_nil, List.append_nil]
      exact Function.update_of_ne (hlonger "-Ids" (by decide)).symm ..
  | bus t events rest =>
      simp only [Recorder.resume, Streams.save_any, Option.map_some, Option.some.injEq,
        Prod.mk.injEq] at h
      obtain ⟨rfl, -⟩ := h
      rw [Awaiting.toCategory]
      by_cases hname : getStream t = T
      · rw [if_pos hname, hname]
        exact Function.update_self ..
      · rw [if_neg hname, List.map_nil, List.append_nil]
        exact Function.update_of_ne (Ne.symm hname) ..

/-- A call that is refused would have appended nothing to `T`. -/
theorem resume_refused {drop : Bool} {call : Awaiting Id P}
    (h : k.resume T drop r.streams a call = none) : call.toCategory T = [] := by
  cases call with
  | category events =>
      rw [Recorder.resume, Streams.save_any] at h
      cases h
  | aggregate events version => rfl
  | ids => rfl
  | bus t events rest =>
      rw [Recorder.resume, Streams.save_any] at h
      cases h

/-- What a step does to `T`. -/
theorem step_category (h : r.step k d T l = some r') :
    r'.streams T = r.streams T ++ (r.appended T l).map k.record := by
  have hsame : r.streams T = r.streams T ++ ([] : List (AggregateEvent Id P)).map k.record :=
    (List.append_nil _).symm
  cases l with
  | construct id sk =>
      cases h
      exact hsame
  | deserialize id n sk =>
      obtain ⟨a, -, rfl⟩ := Option.map_eq_some_iff.mp h
      exact hsame
  | rehydrate id n m sk =>
      obtain ⟨a, -, h⟩ := Option.bind_eq_some_iff.mp h
      split at h
      · cases h
        exact hsame
      · cases h
  | replay id m sk =>
      obtain ⟨events, -, h⟩ := Option.bind_eq_some_iff.mp h
      split at h
      · cases h
        exact hsame
      · cases h
  | raise o t payload =>
      simp only [RecordedWorld.step] at h
      split at h
      · cases h
        exact hsame
      · cases h
  | save o =>
      simp only [RecordedWorld.step] at h
      split at h
      · cases h
        exact hsame
      · cases h
  | complete o fault drop =>
      simp only [RecordedWorld.step] at h
      split at h
      · rename_i a call ho
        cases h
        cases hresume : k.resume T drop r.streams a call with
        | none =>
            cases fault <;> simp only [RecordedWorld.completeCall, hresume, appended, ho,
              resume_refused hresume] <;> exact hsame
        | some after =>
            cases fault with
            | noEffect =>
                simp only [RecordedWorld.completeCall, appended]
                exact hsame
            | none =>
                simp only [RecordedWorld.completeCall, hresume, appended, ho]
                exact resume_category hresume
            | afterEffect =>
                simp only [RecordedWorld.completeCall, hresume, appended, ho]
                exact resume_category hresume
      · cases h

/-- **A class that cannot be read back.** After any run the events of `T`, from which the
    aggregates are built in memory, can be read iff every event that was ever appended to it
    can: by saves that went through, by saves that were refused when it was there already,
    and by the event bus for a class that is called `T`. -/
theorem getAggregateEvents_iff (k : Recorder Id P) (d : Domain Id S P) (T : String)
    {ls : List (Label Id P)} (hrun : Transition.run (step k d T) init ls = some r) :
    (∃ events, k.getAggregateEvents (r.streams T) = some events) ↔
      Transition.Along (step k d T) (AppendsReadable k T) init ls := by
  have hread : (∃ events, k.getAggregateEvents (r.streams T) = some events) ↔
      ∀ x ∈ r.streams T, k.read x ≠ none := by
    rw [Recorder.getAggregateEvents, getEvents_eq_drop, List.drop_zero]
    exact Recorder.readAll_iff
  rw [hread]
  refine Transition.last_iff_along (I := fun r => ∀ x ∈ r.streams T, k.read x ≠ none)
    (B := fun r => ∃ x ∈ r.streams T, k.read x = none) (E := fun _ => True)
    ?_ ?_ ?_ (fun _ h _ => h) ?_ (fun x hx => (List.not_mem_nil hx).elim) hrun trivial
  · intro r l r' h happend hstep x hx
    rw [step_category hstep] at hx
    rcases List.mem_append.mp hx with hx | hx
    · exact h x hx
    · obtain ⟨e, he, rfl⟩ := List.mem_map.mp hx
      exact happend e he
  · intro r l r' _ happend hstep
    simp only [AppendsReadable, not_forall, not_not] at happend
    obtain ⟨e, he, hnone⟩ := happend
    refine ⟨k.record e, ?_, hnone⟩
    rw [step_category hstep]
    exact List.mem_append_right _ (List.mem_map_of_mem he)
  · rintro r l r' ⟨x, hx, hnone⟩ hstep
    refine ⟨x, ?_, hnone⟩
    rw [step_category hstep]
    exact List.mem_append_left _ hx
  · rintro r ⟨x, hx, hnone⟩ - hall
    exact hall x hx hnone

end Unreadable

section Orders

/-- The orders, with decimal numbers for ids. -/
def ordersRecorder : Recorder Nat String where
  json := ordersJson
  assemblies := [ordersAssembly]
  guid n := String.ofList (Nat.toDigits 10 n)
  guid_injective m n h := by
    have h : Nat.toDigits 10 m = Nat.toDigits 10 n := String.ofList_injective h
    rw [← Nat.ofDigitChars_ten_toDigits (n := m), h, Nat.ofDigitChars_ten_toDigits]
  guid_ne_ids n h := by
    have hmem : 'I' ∈ Nat.toDigits 10 n := by
      have h := congrArg String.toList h
      rw [String.toList_ofList] at h
      rw [h]
      decide
    exact absurd (Nat.isDigit_of_mem_toDigits (by decide) (by decide) hmem) (by decide)

/-- An order is the note of its last event. -/
def ordersDomain : TotalDomain Nat String String := ⟨"", fun _ e => e.payload⟩

/-- The classes of the events of an order. -/
def shipped : ClrType := ⟨"/app/Orders.dll", "Orders.Sales", "OrderShipped"⟩
def created : ClrType := ⟨"/app/Orders.dll", "Orders.Sales", "OrderCreated"⟩

/-- An event is raised and saved. -/
def shipping : List (Label Nat String) :=
  [.construct 1 0, .raise 0 shipped "a", .save 0, .complete 0 .none false, .complete 0 .none false,
    .complete 0 .none false, .complete 0 .none false]

theorem recorded_simulates_shipping :
    ∃ r w, Transition.run (step ordersRecorder ordersDomain.domain "Order") init shipping = some r ∧
      Transition.run (EventStore.step ordersDomain.domain "Order") World.init shipping = some w ∧
      Simulates ordersRecorder "Order" r w ∧
      w.store.aggregate 1 = [orderEvent "Orders.Sales" "OrderShipped"] := by
  have hreadable : ordersRecorder.Readable (orderEvent "Orders.Sales" "OrderShipped") :=
    ⟨rfl, by decide⟩
  have hraise : Transition.Along (step ordersRecorder ordersDomain.domain "Order")
      (fun r l => r.RaisesReadable ordersRecorder l) init shipping := by
    refine (Transition.along_cons rfl).mpr ⟨trivial, (Transition.along_cons rfl).mpr ⟨?_, ?_⟩⟩
    · intro obj hobj
      cases hobj
      exact hreadable
    · refine Transition.along_of_mem (fun l hl r => ?_) _
      simp only [List.mem_cons, List.not_mem_nil, or_false] at hl
      rcases hl with rfl | rfl | rfl | rfl | rfl <;> trivial
  have hboth := recorded_simulates ordersRecorder ordersDomain.domain (by decide) hraise
  have hrun : Transition.run (EventStore.step ordersDomain.domain "Order") World.init shipping =
      some _ := rfl
  have hrecorded : Transition.run (step ordersRecorder ordersDomain.domain "Order") init shipping =
      some _ := rfl
  rw [hrun, hrecorded] at hboth
  exact ⟨_, _, hrecorded, hrun, Option.rel_some_some.mp hboth, rfl⟩

/-- Another object for the order has raised an event whose class has a namesake. -/
def creatingToo : List (Label Nat String) :=
  shipping ++ [.construct 1 0, .raise 1 created "a", .save 1]

/-- The save of the event is refused, and the orders cannot be read any more. -/
theorem getAggregateEvents_fails_creatingToo :
    ∃ r, Transition.run (step ordersRecorder ordersDomain.domain "Order") init
        (creatingToo ++ [.complete 1 .none false, .complete 1 .none false]) = some r ∧
      r.accepted 1 = [orderEvent "Orders.Sales" "OrderShipped"] ∧
      ¬ ∃ events, ordersRecorder.getAggregateEvents (r.streams "Order") = some events := by
  have hrun : Transition.run (step ordersRecorder ordersDomain.domain "Order") init
      (creatingToo ++ [.complete 1 .none false, .complete 1 .none false]) = some _ := rfl
  refine ⟨_, hrun, rfl, fun hread => ?_⟩
  have halong := (getAggregateEvents_iff ordersRecorder ordersDomain.domain "Order" hrun).mp hread
  have hbefore : Transition.run (step ordersRecorder ordersDomain.domain "Order") init
      creatingToo = some _ := rfl
  have happends := (Transition.along_append hbefore halong).2.1
  exact happends (orderEvent "Orders.Sales" "OrderCreated") List.mem_cons_self rfl

end Orders

end RecordedWorld

end Milde.EventStore
