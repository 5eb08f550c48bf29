/-
  Milde.EventStore.EventBus

  Publishers and subscribers of the event bus (EventStore/EventBus/EventBus.cs,
  EventStore/EventConverter.cs).

  They meet through the simple name of a class: a publisher appends to the stream with
  that name, and a subscriber reads every event it finds there as an event of its own
  class, without a look at the class that the metadata names.  So a handler sees exactly
  the events of its class iff no event of another class with the name is appended while
  it is subscribed (`handled_iff`).

  `JsonConvert` is a parameter with the one law that an event reads back as it was at its
  own class.  A live subscription delivers what is appended to its stream, in order.
-/
import Milde.Common.Lists
import Milde.Common.Run
import Milde.EventStore.SaveAggregate

namespace Milde.EventStore

open Milde.EventSourcing

variable {Id P Json : Type}

-- ============================================================================
-- EventConverter
-- ============================================================================

structure EventMetadata where
  assembly : String
  eventType : String
deriving DecidableEq, Repr

/-- What a stream stores of an event. -/
structure EventData (Json : Type) where
  type : String
  data : Json
  metadata : EventMetadata
deriving DecidableEq, Repr

/-- `JsonConvert.SerializeObject` and `DeserializeObject` at a class, with the text as the
    bytes that are stored. -/
structure Serializer (Id P Json : Type) where
  serialize : AggregateEvent Id P → Json
  deserialize : ClrType → Json → AggregateEvent Id P
  roundTrip : ∀ e, deserialize e.type (serialize e) = e

def toEventData (c : Serializer Id P Json) (event : AggregateEvent Id P) : EventData Json where
  type := event.type.name
  data := c.serialize event
  metadata := ⟨event.type.assembly, event.type.name⟩

/-- `FromEventData<TEvent>`, and `FromEventData(eventType, eventData)`. -/
def fromEventData (c : Serializer Id P Json) (eventType : ClrType) (eventData : EventData Json) :
    AggregateEvent Id P :=
  c.deserialize eventType eventData.data

-- ============================================================================
-- EventBus
-- ============================================================================

/-- A live subscription: it has handled the events of its stream before `position`, and
    `since` of the events were published before it. -/
structure Subscription (Id P : Type) where
  eventType : ClrType
  position : Nat
  since : Nat
  handled : List (AggregateEvent Id P)

/-- The streams, the groups that each running `Publish` has still to append, the
    subscriptions, and as a ghost all events in the order of their appends. -/
structure EventBus (Id P Json : Type) where
  streams : String → List (EventData Json)
  publishing : List (List (ClrType × List (AggregateEvent Id P)))
  subscriptions : List (Subscription Id P)
  appended : List (AggregateEvent Id P)

/-- A call of `Publish` with one event or with a list, of `Subscribe` in either form, the
    next append of a running `Publish` or its failure, and a delivery. -/
inductive BusLabel (Id P : Type) where
  | publish (event : AggregateEvent Id P)
  | publishAll (events : List (AggregateEvent Id P))
  | subscribe (eventType : ClrType)
  | append (i : Nat)
  | fail (i : Nat)
  | deliver (k : Nat)

def EventBus.init : EventBus Id P Json := ⟨fun _ => [], [], [], []⟩

/-- One step; `none` when the label is not enabled. -/
def busStep (c : Serializer Id P Json) (b : EventBus Id P Json) :
    BusLabel Id P → Option (EventBus Id P Json)
  | .publish event =>
      some { b with publishing := b.publishing ++ [[(event.type, [event])]] }
  | .publishAll events =>
      some { b with publishing := b.publishing ++ [eventsByType events] }
  | .subscribe eventType => some { b with
      subscriptions := b.subscriptions ++ [{ eventType
                                             position := (b.streams (getStream eventType)).length
                                             since := b.appended.length
                                             handled := [] }] }
  | .append i =>
      match b.publishing[i]? with
      | some ((eventType, events) :: rest) => some { b with
          streams := Function.update b.streams (getStream eventType)
            (b.streams (getStream eventType) ++ events.map (toEventData c))
          publishing := b.publishing.set i rest
          appended := b.appended ++ events }
      | _ => none
  | .fail i =>
      match b.publishing[i]? with
      | some (_ :: _) => some { b with publishing := b.publishing.set i [] }
      | _ => none
  | .deliver k =>
      match b.subscriptions[k]? with
      | some s =>
          match (b.streams (getStream s.eventType))[s.position]? with
          | some eventData => some { b with
              subscriptions := b.subscriptions.set k { s with
                position := s.position + 1
                handled := s.handled ++ [fromEventData c s.eventType eventData] } }
          | none => none
      | none => none

/-- The events of its stream that the subscription has not handled. -/
def Subscription.pending (s : Subscription Id P) (streams : String → List (EventData Json)) :
    List (EventData Json) :=
  (streams (getStream s.eventType)).drop s.position

/-- The events of the class appended after the subscription. -/
def Subscription.expected (s : Subscription Id P) (appended : List (AggregateEvent Id P)) :
    List (AggregateEvent Id P) :=
  (appended.drop s.since).filter fun e => decide (e.type = s.eventType)

def Delivered (b : EventBus Id P Json) : Prop :=
  ∀ s ∈ b.subscriptions, s.pending b.streams = []

/-- Each handler was invoked with the events of its class appended after its subscription,
    in their order, once each, and with nothing else. -/
def HandlesItsOwn (b : EventBus Id P Json) : Prop :=
  ∀ s ∈ b.subscriptions, s.handled = s.expected b.appended

/-- When events of a class are appended, who is subscribed at the simple name is subscribed
    for the class. -/
def OneClass (b : EventBus Id P Json) : BusLabel Id P → Prop
  | .append i => ∀ eventType events rest,
      b.publishing[i]? = some ((eventType, events) :: rest) →
        ∀ s ∈ b.subscriptions, getStream s.eventType = getStream eventType →
          s.eventType = eventType
  | _ => True

-- ============================================================================
-- What holds of every run
-- ============================================================================

/-- The groups of a running `Publish` are of their class, and a subscription does not stand
    behind the end of its stream. -/
structure EventBus.WellFormed (b : EventBus Id P Json) : Prop where
  groups : ∀ call ∈ b.publishing, ∀ g ∈ call, g.2 ≠ [] ∧ ∀ e ∈ g.2, e.type = g.1
  positions : ∀ s ∈ b.subscriptions, s.position ≤ (b.streams (getStream s.eventType)).length ∧
    s.since ≤ b.appended.length

/-- What has been and will be handled is what should be. -/
def Subscription.Exact (c : Serializer Id P Json) (b : EventBus Id P Json)
    (s : Subscription Id P) : Prop :=
  s.handled ++ (s.pending b.streams).map (fromEventData c s.eventType) = s.expected b.appended

/-- It is more than what should be. -/
def Subscription.Excess (b : EventBus Id P Json) (s : Subscription Id P) : Prop :=
  (s.expected b.appended).length < s.handled.length + (s.pending b.streams).length

section Steps

variable {c : Serializer Id P Json} {b b' : EventBus Id P Json} {l : BusLabel Id P}

/-- The five things a step does. -/
theorem busStep_cases (h : busStep c b l = some b') :
    (∃ groups, (∀ g ∈ groups, g.2 ≠ [] ∧ ∀ e ∈ g.2, e.type = g.1) ∧ (∀ i, l ≠ .append i) ∧
      b' = { b with publishing := b.publishing ++ [groups] }) ∨
    (∃ eventType, l = .subscribe eventType ∧ b' = { b with
      subscriptions := b.subscriptions ++
        [⟨eventType, (b.streams (getStream eventType)).length, b.appended.length, []⟩] }) ∨
    (∃ i eventType events rest, l = .append i ∧
      b.publishing[i]? = some ((eventType, events) :: rest) ∧ b' = { b with
        streams := Function.update b.streams (getStream eventType)
          (b.streams (getStream eventType) ++ events.map (toEventData c))
        publishing := b.publishing.set i rest
        appended := b.appended ++ events }) ∨
    (∃ i, l = .fail i ∧ b' = { b with publishing := b.publishing.set i [] }) ∨
    (∃ k s eventData, l = .deliver k ∧ b.subscriptions[k]? = some s ∧
      (b.streams (getStream s.eventType))[s.position]? = some eventData ∧ b' = { b with
        subscriptions := b.subscriptions.set k { s with
          position := s.position + 1
          handled := s.handled ++ [fromEventData c s.eventType eventData] } }) := by
  cases l with
  | publish event =>
      refine Or.inl ⟨[(event.type, [event])], ?_, nofun, (Option.some.inj h).symm⟩
      intro g hg
      obtain rfl := List.mem_singleton.mp hg
      exact ⟨nofun, fun e he => by rw [List.mem_singleton.mp he]⟩
  | publishAll events =>
      refine Or.inl ⟨eventsByType events, ?_, nofun, (Option.some.inj h).symm⟩
      exact fun g hg => ⟨(group_spec hg).1, fun e he => ((group_spec hg).2 e he).2⟩
  | subscribe eventType => exact Or.inr (Or.inl ⟨eventType, rfl, (Option.some.inj h).symm⟩)
  | append i =>
      simp only [busStep] at h
      split at h
      · exact Or.inr (Or.inr (Or.inl ⟨i, _, _, _, rfl, ‹_›, (Option.some.inj h).symm⟩))
      · cases h
  | fail i =>
      simp only [busStep] at h
      split at h
      · exact Or.inr (Or.inr (Or.inr (Or.inl ⟨i, rfl, (Option.some.inj h).symm⟩)))
      · cases h
  | deliver k =>
      simp only [busStep] at h
      split at h
      · split at h
        · exact Or.inr (Or.inr (Or.inr (Or.inr ⟨k, _, _, rfl, ‹_›, ‹_›, (Option.some.inj h).symm⟩)))
        · cases h
      · cases h

theorem EventBus.WellFormed.step (h : b.WellFormed) (hstep : busStep c b l = some b') :
    b'.WellFormed := by
  rcases busStep_cases hstep with ⟨groups, hgroups, -, rfl⟩ | ⟨eventType, -, rfl⟩ |
    ⟨i, t, events, rest, -, hi, rfl⟩ | ⟨i, -, rfl⟩ | ⟨k, s, eventData, -, hk, hnext, rfl⟩
  · refine ⟨fun call hcall => ?_, h.positions⟩
    rcases List.mem_append.mp hcall with hcall | hcall
    · exact h.groups call hcall
    · rw [List.mem_singleton.mp hcall]
      exact hgroups
  · refine ⟨h.groups, fun s hs => ?_⟩
    rcases List.mem_append.mp hs with hs | hs
    · exact h.positions s hs
    · rw [List.mem_singleton.mp hs]
      exact ⟨Nat.le_refl _, Nat.le_refl _⟩
  · refine ⟨fun call hcall => ?_, fun s hs => ?_⟩
    · rcases List.mem_or_eq_of_mem_set hcall with hcall | rfl
      · exact h.groups call hcall
      · exact fun g hg => h.groups _ (List.mem_of_getElem? hi) g (List.mem_cons_of_mem _ hg)
    · obtain ⟨hposition, hsince⟩ := h.positions s hs
      refine ⟨?_, ?_⟩
      · show s.position ≤ (Function.update b.streams _ _ (getStream s.eventType)).length
        by_cases hname : getStream s.eventType = getStream t
        · rw [hname, Function.update_self, List.length_append, ← hname]
          omega
        · rw [Function.update_of_ne hname]
          exact hposition
      · rw [List.length_append]
        omega
  · refine ⟨fun call hcall => ?_, h.positions⟩
    rcases List.mem_or_eq_of_mem_set hcall with hcall | rfl
    · exact h.groups call hcall
    · exact fun g hg => absurd hg List.not_mem_nil
  · refine ⟨h.groups, fun s' hs' => ?_⟩
    rcases List.mem_or_eq_of_mem_set hs' with hs' | rfl
    · exact h.positions s' hs'
    · exact ⟨(List.getElem?_eq_some_iff.mp hnext).1, (h.positions s (List.mem_of_getElem? hk)).2⟩

/-- What an append to a stream adds for a subscription. -/
theorem pending_append {s : Subscription Id P} {streams : String → List (EventData Json)}
    {name : String} {new : List (EventData Json)}
    (hposition : s.position ≤ (streams (getStream s.eventType)).length) :
    s.pending (Function.update streams name (streams name ++ new)) =
      s.pending streams ++ if getStream s.eventType = name then new else [] := by
  unfold Subscription.pending
  by_cases hname : getStream s.eventType = name
  · subst hname
    rw [Function.update_self, if_pos rfl, List.drop_append_of_le_length hposition]
  · rw [Function.update_of_ne hname, if_neg hname, List.append_nil]

theorem expected_append {s : Subscription Id P} {appended events : List (AggregateEvent Id P)}
    {t : ClrType} (hsince : s.since ≤ appended.length) (htype : ∀ e ∈ events, e.type = t) :
    s.expected (appended ++ events) =
      s.expected appended ++ if s.eventType = t then events else [] := by
  unfold Subscription.expected
  rw [List.drop_append_of_le_length hsince, List.filter_append]
  congr 1
  by_cases hE : s.eventType = t
  · rw [if_pos hE]
    exact List.filter_eq_self.mpr fun e he => decide_eq_true ((htype e he).trans hE.symm)
  · rw [if_neg hE]
    apply List.filter_eq_nil_iff.mpr
    intro e he
    rw [htype e he, decide_eq_true_eq]
    exact Ne.symm hE

/-- An entry reads back at the class of its event. -/
theorem fromEventData_self (c : Serializer Id P Json) (e : AggregateEvent Id P) :
    fromEventData c e.type (toEventData c e) = e :=
  c.roundTrip e

/-- The stored events of a class read back at the class. -/
theorem fromEventData_toEventData {t : ClrType} {events : List (AggregateEvent Id P)}
    (htype : ∀ e ∈ events, e.type = t) :
    (events.map (toEventData c)).map (fromEventData c t) = events := by
  have hback : ∀ e ∈ events, (fromEventData c t ∘ toEventData c) e = id e := by
    intro e he
    rw [← htype e he]
    exact fromEventData_self c e
  rw [List.map_map, List.map_congr_left hback, List.map_id]

/-- The next pending event. -/
theorem pending_cons {s : Subscription Id P} {streams : String → List (EventData Json)}
    {eventData : EventData Json}
    (hnext : (streams (getStream s.eventType))[s.position]? = some eventData) :
    s.pending streams =
      eventData :: (streams (getStream s.eventType)).drop (s.position + 1) := by
  obtain ⟨hlt, rfl⟩ := List.getElem?_eq_some_iff.mp hnext
  exact List.drop_eq_getElem_cons hlt

/-- While one class has the name, the handlers stay exact. -/
theorem exact_step (hwf : b.WellFormed) (h : ∀ s ∈ b.subscriptions, s.Exact c b)
    (hone : OneClass b l) (hstep : busStep c b l = some b') :
    ∀ s ∈ b'.subscriptions, s.Exact c b' := by
  rcases busStep_cases hstep with ⟨groups, -, -, rfl⟩ | ⟨eventType, -, rfl⟩ |
    ⟨i, t, events, rest, rfl, hi, rfl⟩ | ⟨i, -, rfl⟩ | ⟨k, s, eventData, -, hk, hnext, rfl⟩
  · exact h
  · intro s hs
    rcases List.mem_append.mp hs with hs | hs
    · exact h s hs
    · rw [List.mem_singleton.mp hs]
      simp [Subscription.Exact, Subscription.pending, Subscription.expected]
  · intro s hs
    obtain ⟨hposition, hsince⟩ := hwf.positions s hs
    have htype := (hwf.groups _ (List.mem_of_getElem? hi) _ List.mem_cons_self).2
    show s.handled ++ (s.pending (Function.update b.streams _ _)).map _ = s.expected (_ ++ events)
    rw [pending_append hposition, expected_append hsince htype, List.map_append,
      ← List.append_assoc, show _ ++ _ = s.expected b.appended from h s hs]
    congr 1
    by_cases hname : getStream s.eventType = getStream t
    · have hE := hone t events rest hi s hs hname
      rw [if_pos hname, if_pos hE, hE]
      exact fromEventData_toEventData htype
    · have hE : s.eventType ≠ t := fun hE => hname (congrArg getStream hE)
      rw [if_neg hname, if_neg hE]
      rfl
  · exact h
  · intro s' hs'
    rcases List.mem_or_eq_of_mem_set hs' with hs' | rfl
    · exact h s' hs'
    · have hs : s.handled ++ (s.pending b.streams).map (fromEventData c s.eventType) =
          s.expected b.appended := h s (List.mem_of_getElem? hk)
      rw [pending_cons hnext] at hs
      show (s.handled ++ [_]) ++ ((b.streams (getStream s.eventType)).drop _).map _ = _
      rw [List.append_assoc]
      exact hs

/-- Where another class has the name, a handler gets more than it should. -/
theorem excess_of_append (hwf : b.WellFormed) (h : ∀ s ∈ b.subscriptions, s.Exact c b)
    (hone : ¬ OneClass b l) (hstep : busStep c b l = some b') :
    ∃ s ∈ b'.subscriptions, s.Excess b' := by
  cases l with
  | append i =>
      simp only [OneClass, not_forall] at hone
      obtain ⟨t, events, rest, hi, s, hs, hname, hE⟩ := hone
      simp only [busStep, hi, Option.some.injEq] at hstep
      subst hstep
      obtain ⟨hposition, hsince⟩ := hwf.positions s hs
      obtain ⟨hne, htype⟩ : events ≠ [] ∧ ∀ e ∈ events, e.type = t :=
        hwf.groups _ (List.mem_of_getElem? hi) _ List.mem_cons_self
      have hexact := congrArg List.length
        (show s.handled ++ _ = s.expected b.appended from h s hs)
      have hpos := List.length_pos_iff.mpr hne
      refine ⟨s, hs, ?_⟩
      show (s.expected (_ ++ events)).length <
        _ + (s.pending (Function.update b.streams _ _)).length
      rw [pending_append hposition, expected_append hsince htype, if_pos hname, if_neg hE]
      simp only [List.length_append, List.length_map, List.length_nil] at hexact hpos ⊢
      omega
  | _ => exact absurd trivial hone

/-- What a handler gets too much is never made good. -/
theorem excess_step (hwf : b.WellFormed) (h : ∃ s ∈ b.subscriptions, s.Excess b)
    (hstep : busStep c b l = some b') : ∃ s ∈ b'.subscriptions, s.Excess b' := by
  rcases busStep_cases hstep with ⟨groups, -, -, rfl⟩ | ⟨eventType, -, rfl⟩ |
    ⟨i, t, events, rest, rfl, hi, rfl⟩ | ⟨i, -, rfl⟩ | ⟨k, s, eventData, -, hk, hnext, rfl⟩
  · exact h
  · obtain ⟨s, hs, hexcess⟩ := h
    exact ⟨s, List.mem_append_left _ hs, hexcess⟩
  · obtain ⟨s, hs, hexcess⟩ := h
    obtain ⟨hposition, hsince⟩ := hwf.positions s hs
    have htype : ∀ e ∈ events, e.type = t :=
      (hwf.groups _ (List.mem_of_getElem? hi) _ List.mem_cons_self).2
    have hexcess : (s.expected b.appended).length <
        s.handled.length + (s.pending b.streams).length := hexcess
    refine ⟨s, hs, ?_⟩
    show (s.expected (_ ++ events)).length < _ + (s.pending (Function.update b.streams _ _)).length
    rw [pending_append hposition, expected_append hsince htype, List.length_append,
      List.length_append]
    by_cases hE : s.eventType = t
    · rw [if_pos hE, if_pos (congrArg getStream hE), List.length_map]
      omega
    · rw [if_neg hE, List.length_nil]
      omega
  · exact h
  · apply List.exists_mem_set h hk
    intro hexcess
    have hexcess : (s.expected b.appended).length <
        s.handled.length + (s.pending b.streams).length := hexcess
    rw [pending_cons hnext, List.length_cons] at hexcess
    show (s.expected b.appended).length < (s.handled ++ [_]).length +
      ((b.streams (getStream s.eventType)).drop (s.position + 1)).length
    rw [List.length_append, List.length_singleton]
    omega

/-- **Subscriptions are type-safe** in a run iff only events of one class are appended at a
    subscribed name. -/
theorem handled_iff {ls : List (BusLabel Id P)}
    (hrun : Transition.run (busStep c) EventBus.init ls = some b) (hdone : Delivered b) :
    HandlesItsOwn b ↔ Transition.Along (busStep c) OneClass EventBus.init ls := by
  refine Transition.last_iff_along
    (I := fun b => b.WellFormed ∧ ∀ s ∈ b.subscriptions, s.Exact c b)
    (B := fun b => b.WellFormed ∧ ∃ s ∈ b.subscriptions, s.Excess b) (E := Delivered)
    (fun _ _ _ h hone hstep => ⟨h.1.step hstep, exact_step h.1 h.2 hone hstep⟩)
    (fun _ _ _ h hone hstep => ⟨h.1.step hstep, excess_of_append h.1 h.2 hone hstep⟩)
    (fun _ _ _ h hstep => ⟨h.1.step hstep, excess_step h.1 h.2 hstep⟩) ?_ ?_
    ⟨⟨nofun, nofun⟩, nofun⟩ hrun hdone
  · intro b h hdone s hs
    have hexact : s.handled ++ (s.pending b.streams).map _ = s.expected b.appended := h.2 s hs
    rw [hdone s hs, List.map_nil, List.append_nil] at hexact
    exact hexact
  · rintro b ⟨-, s, hs, hexcess⟩ hdone hall
    have hexcess : (s.expected b.appended).length <
        s.handled.length + (s.pending b.streams).length := hexcess
    rw [hdone s hs, hall s hs, List.length_nil] at hexcess
    omega

end Steps

-- ============================================================================
-- Two classes with one name
-- ============================================================================

section Orders

/-- Json of the four members that every event of the two classes has. -/
def sharedMembers : Serializer Nat String (Nat × Int32 × Int32 × String) where
  serialize e := (e.aggregateId, e.version, e.shardKey, e.payload)
  deserialize eventType := fun (id, version, shardKey, payload) =>
    ⟨eventType, id, version, shardKey, payload⟩
  roundTrip _ := rfl

def salesCreated : ClrType := ⟨"Sales", "Sales.Events", "OrderCreated"⟩
def stockCreated : ClrType := ⟨"Stock", "Stock.Events", "OrderCreated"⟩
def salesShipped : ClrType := ⟨"Sales", "Sales.Events", "OrderShipped"⟩

/-- A subscription for one class, a list with an event of `other` besides its own, and the
    deliveries. -/
def ordersPublished (other : ClrType) (deliveries : Nat) : List (BusLabel Nat String) :=
  [.subscribe salesCreated, .publishAll [⟨other, 1, 1, 0, "a"⟩, ⟨salesCreated, 2, 1, 0, "b"⟩],
    .append 0, .append 0] ++ List.replicate deliveries (.deliver 0)

def ordersEnd (other : ClrType) (deliveries : Nat) :
    EventBus Nat String (Nat × Int32 × Int32 × String) :=
  (Transition.run (busStep sharedMembers) EventBus.init
    (ordersPublished other deliveries)).getD EventBus.init

theorem handled_shipped :
    Transition.run (busStep sharedMembers) EventBus.init (ordersPublished salesShipped 1) =
        some (ordersEnd salesShipped 1) ∧ HandlesItsOwn (ordersEnd salesShipped 1) := by
  have hrun : Transition.run (busStep sharedMembers) EventBus.init
      (ordersPublished salesShipped 1) = some (ordersEnd salesShipped 1) := rfl
  have hdone : ∀ s ∈ (ordersEnd salesShipped 1).subscriptions,
      s.pending (ordersEnd salesShipped 1).streams = [] := by decide
  refine ⟨hrun, (handled_iff hrun hdone).mpr ?_⟩
  refine (Transition.along_cons rfl).mpr ⟨trivial, (Transition.along_cons rfl).mpr ⟨trivial,
    (Transition.along_cons rfl).mpr ⟨?_, (Transition.along_cons rfl).mpr ⟨?_,
      (Transition.along_cons rfl).mpr ⟨trivial, trivial⟩⟩⟩⟩⟩
  · intro eventType events rest hi s hs hname
    cases hi
    rw [List.mem_singleton.mp hs] at hname
    exact absurd hname (by decide)
  · intro eventType events rest hi s hs _
    cases hi
    rw [List.mem_singleton.mp hs]

/-- The handler of one class gets the event of the other, made into one of its own. -/
theorem handled_fails_stock :
    Transition.run (busStep sharedMembers) EventBus.init (ordersPublished stockCreated 2) =
        some (ordersEnd stockCreated 2) ∧
      Delivered (ordersEnd stockCreated 2) ∧
      (ordersEnd stockCreated 2).subscriptions.map (fun s => s.handled) =
        [[⟨salesCreated, 1, 1, 0, "a"⟩, ⟨salesCreated, 2, 1, 0, "b"⟩]] ∧
      ¬ HandlesItsOwn (ordersEnd stockCreated 2) := by
  have hdone : ∀ s ∈ (ordersEnd stockCreated 2).subscriptions,
      s.pending (ordersEnd stockCreated 2).streams = [] := by decide
  refine ⟨rfl, hdone, rfl, fun h => ?_⟩
  have hlength : ∀ s ∈ (ordersEnd stockCreated 2).subscriptions,
      s.handled.length = (s.expected (ordersEnd stockCreated 2).appended).length :=
    fun s hs => congrArg List.length (h s hs)
  exact absurd hlength (by decide)

end Orders

end Milde.EventStore
