/-
  Milde.EventStore.EventConverter

  Encoding events and reading them back by their metadata (EventStore/EventConverter.cs,
  EventStore/Entities/EventMetadata.cs, EventSourcing/Serialization/Serializer.cs).

  The metadata name the class by the location of its assembly and its simple name.  The
  reader loads the assembly from the location, looks for the one defined type with the name,
  and reads the JSON at that type, so an event comes back iff its class is that type
  (`decodes_iff`).  Nested types, types of other namespaces and generic type definitions are
  among the defined types of an assembly; the instances of a generic type are not.

  `JsonConvert` is a parameter.  Texts are stored as UTF-8; the model keeps the stored bytes
  as the text they decode to.
-/
import Milde.Common.Utf16
import Milde.EventStore.EventBus

namespace Milde.EventStore

open Milde.EventSourcing

variable {Id P : Type}

-- ============================================================================
-- Assemblies
-- ============================================================================

/-- A loaded assembly: its `Location`, which is empty when it was not loaded from a file,
    and its `DefinedTypes`. -/
structure Assembly where
  location : String
  definedTypes : List ClrType
  definedHere : ∀ t ∈ definedTypes, t.assembly = location
  distinct : definedTypes.Nodup

/-- The exceptions of the decoder. -/
inductive DecodeException where
  | argument
  | fileNotFound
  | invalidOperation
  | json
deriving DecidableEq, Repr

/-- `Assembly.LoadFrom(path)`: an empty path is refused. -/
def loadFrom (assemblies : List Assembly) (path : String) : Except DecodeException Assembly :=
  if path = "" then .error .argument
  else
    match assemblies.find? fun a => a.location = path with
    | none => .error .fileNotFound
    | some a => .ok a

/-- `DefinedTypes.Single(t => t.Name == name)`. -/
def Assembly.singleType (a : Assembly) (name : String) : Except DecodeException ClrType :=
  match a.definedTypes.filter fun t => t.name = name with
  | [t] => .ok t
  | _ => .error .invalidOperation

theorem loadFrom_eq_ok {assemblies : List Assembly} {path : String} {a : Assembly} :
    loadFrom assemblies path = .ok a ↔
      path ≠ "" ∧ (assemblies.find? fun a => a.location = path) = some a := by
  unfold loadFrom
  split
  · rename_i hpath
    exact iff_of_false nofun fun h => h.1 hpath
  · rename_i hpath
    split
    · rename_i hfind
      rw [hfind]
      exact iff_of_false nofun fun h => nomatch h.2
    · rename_i a' hfind
      rw [hfind, Except.ok.injEq, Option.some.injEq]
      exact (and_iff_right hpath).symm

/-- The single type of a name is the only defined type with the name. -/
theorem Assembly.singleType_eq_ok {a : Assembly} {t : ClrType} {name : String} :
    a.singleType name = .ok t ↔
      (t ∈ a.definedTypes ∧ t.name = name) ∧
        ∀ t' ∈ a.definedTypes, t'.name = name → t' = t := by
  have hsingle := a.distinct.filter_eq_singleton_iff (p := fun t => decide (t.name = name)) (x := t)
  simp only [decide_eq_true_eq] at hsingle
  rw [← hsingle, Assembly.singleType]
  split
  · rename_i t' hfilter
    rw [hfilter, Except.ok.injEq, List.cons_eq_cons, and_iff_left rfl]
  · rename_i hnot
    exact iff_of_false nofun fun h => hnot t h

-- ============================================================================
-- Serializer and EventConverter
-- ============================================================================

/-- `JsonConvert`: the text of an object is never empty, and what is read at a type is
    `null`, no aggregate event, or an event of that type. -/
structure JsonConvert (Id P : Type) where
  serializeObject : AggregateEvent Id P → Text
  deserializeObject : ClrType → Text → Except DecodeException (Option (AggregateEvent Id P))
  serialize_ne_nil : ∀ e, serializeObject e ≠ []
  instanceOf : ∀ t s e, deserializeObject t s = .ok (some e) → e.type = t

namespace JsonConvert

variable (c : JsonConvert Id P) (assemblies : List Assembly)

/-- `Serializer.Deserialize(dataType, data)`. -/
def deserialize (dataType : ClrType) (data : Text) :
    Except DecodeException (Option (AggregateEvent Id P)) :=
  if data = [] then .ok none else c.deserializeObject dataType data

/-- `ToEventData`. -/
def toEventData (event : AggregateEvent Id P) : EventData Text where
  type := event.type.name
  data := (c.serializeObject event).transcode
  metadata := ⟨event.type.assembly, event.type.name⟩

/-- `FromEventData(eventType, eventData)`. -/
def fromEventDataAt (eventType : ClrType) (eventData : EventData Text) :
    Except DecodeException (Option (AggregateEvent Id P)) :=
  c.deserialize eventType eventData.data

/-- `FromEventData(eventData)`. -/
def fromEventData (eventData : EventData Text) :
    Except DecodeException (Option (AggregateEvent Id P)) :=
  (loadFrom assemblies eventData.metadata.assembly).bind fun a =>
    (a.singleType eventData.metadata.eventType).bind fun eventType =>
      c.fromEventDataAt eventType eventData

end JsonConvert

/-- The stored form of an event reads back as the event. -/
def Decodes (c : JsonConvert Id P) (assemblies : List Assembly) (e : AggregateEvent Id P) :
    Prop :=
  c.fromEventData assemblies (c.toEventData e) = .ok (some e)

/-- The class can be found by its metadata: its assembly has a location, from which it is
    loaded, and the class is the only type defined there with its simple name. -/
def OnlyOfItsName (assemblies : List Assembly) (t : ClrType) : Prop :=
  t.assembly ≠ "" ∧ ∃ a, (assemblies.find? fun a => a.location = t.assembly) = some a ∧
    t ∈ a.definedTypes ∧ ∀ t' ∈ a.definedTypes, t'.name = t.name → t' = t

/-- The text reads the same after it has been stored as UTF-8. -/
def ReadsStored (c : JsonConvert Id P) (e : AggregateEvent Id P) : Prop :=
  c.deserializeObject e.type (c.serializeObject e).transcode =
    c.deserializeObject e.type (c.serializeObject e)

section Decode

variable {c : JsonConvert Id P} {assemblies : List Assembly} {e : AggregateEvent Id P}

/-- A text without a lone surrogate does. -/
theorem readsStored_of_wellFormed (h : (c.serializeObject e).WellFormed) : ReadsStored c e := by
  rw [ReadsStored, (Text.transcode_eq_self_iff _).mpr h]

theorem transcode_ne_nil {s : Text} (h : s ≠ []) : s.transcode ≠ [] := by
  cases s using Text.transcode.induct with
  | case1 => exact absurd rfl h
  | case2 u => exact List.cons_ne_nil _ _
  | case3 u l rest hpair =>
      rw [Text.transcode, if_pos hpair]
      exact List.cons_ne_nil _ _
  | case4 u l rest hpair =>
      rw [Text.transcode, if_neg hpair]
      exact List.cons_ne_nil _ _

/-- What is stored is read at the class that the metadata lead to. -/
theorem fromEventDataAt_toEventData (t : ClrType) :
    c.fromEventDataAt t (c.toEventData e) =
      c.deserializeObject t (c.serializeObject e).transcode :=
  if_neg (transcode_ne_nil (c.serialize_ne_nil e))

/-- **Decoding** goes through iff the metadata lead to a type and the text reads there. -/
theorem fromEventData_eq_ok {r : Option (AggregateEvent Id P)} :
    c.fromEventData assemblies (c.toEventData e) = .ok r ↔
      ∃ a t, loadFrom assemblies e.type.assembly = .ok a ∧
        a.singleType e.type.name = .ok t ∧
        c.deserializeObject t (c.serializeObject e).transcode = .ok r := by
  unfold JsonConvert.fromEventData
  have hassembly : (c.toEventData e).metadata.assembly = e.type.assembly := rfl
  have hname : (c.toEventData e).metadata.eventType = e.type.name := rfl
  rw [hassembly, hname]
  cases hload : loadFrom assemblies e.type.assembly with
  | error x => exact iff_of_false nofun (by rintro ⟨a, t, ha, -⟩; cases ha)
  | ok a =>
      cases hsingle : a.singleType e.type.name with
      | error x =>
          refine iff_of_false ?_ ?_
          · simp only [Except.bind, hsingle]
            exact nofun
          · rintro ⟨a', t, ha', ht, -⟩
            cases ha'
            rw [hsingle] at ht
            cases ht
      | ok t =>
          simp only [Except.bind, hsingle, fromEventDataAt_toEventData]
          refine ⟨fun h => ⟨a, t, rfl, hsingle, h⟩, ?_⟩
          rintro ⟨a', t', ha', ht', h⟩
          cases ha'
          rw [hsingle] at ht'
          cases ht'
          exact h

/-- **Stored events decode to what was encoded** iff the metadata lead to their class and
    their text reads the same after it has been stored. -/
theorem decodes_iff (hjson : c.deserializeObject e.type (c.serializeObject e) = .ok (some e)) :
    Decodes c assemblies e ↔ OnlyOfItsName assemblies e.type ∧ ReadsStored c e := by
  rw [Decodes, fromEventData_eq_ok, OnlyOfItsName, ReadsStored, hjson]
  refine ⟨?_, ?_⟩
  · rintro ⟨a, t, hload, hsingle, hread⟩
    -- what is read at a type is of that type
    obtain rfl : e.type = t := c.instanceOf t _ e hread
    obtain ⟨hlocation, hfind⟩ := loadFrom_eq_ok.mp hload
    obtain ⟨⟨hmem, -⟩, honly⟩ := Assembly.singleType_eq_ok.mp hsingle
    exact ⟨⟨hlocation, a, hfind, hmem, honly⟩, hread⟩
  · rintro ⟨⟨hlocation, a, hfind, hmem, honly⟩, hread⟩
    exact ⟨a, e.type, loadFrom_eq_ok.mpr ⟨hlocation, hfind⟩,
      Assembly.singleType_eq_ok.mpr ⟨⟨hmem, rfl⟩, honly⟩, hread⟩

/-- `GetEvents(stream)` followed by `Select(FromEventData)`: a stream whose events decode
    reads as it was written. -/
theorem decode_stream {events : List (AggregateEvent Id P)}
    (h : ∀ e ∈ events, Decodes c assemblies e) :
    (events.map c.toEventData).mapM (c.fromEventData assemblies) = .ok (events.map some) := by
  induction events with
  | nil => rfl
  | cons e events ih =>
      obtain ⟨he, hrest⟩ := List.forall_mem_cons.mp h
      rw [List.map_cons, List.mapM_cons, show _ = _ from he, ih hrest]
      rfl

end Decode

-- ============================================================================
-- Two classes with one name
-- ============================================================================

section Orders

/-- An assembly with the created events of two namespaces and one other event. -/
def ordersAssembly : Assembly where
  location := "/app/Orders.dll"
  definedTypes := [⟨"/app/Orders.dll", "Orders.Sales", "OrderCreated"⟩,
    ⟨"/app/Orders.dll", "Orders.Stock", "OrderCreated"⟩,
    ⟨"/app/Orders.dll", "Orders.Sales", "OrderShipped"⟩]
  definedHere := by decide
  distinct := by decide

/-- An event of one of the classes. -/
def orderEvent (ns name : String) : AggregateEvent Nat String :=
  ⟨⟨"/app/Orders.dll", ns, name⟩, 1, 1, 0, "a"⟩

/-- Json of the four members of the order events, read back for the members of one. -/
def ordersJson : JsonConvert Nat String where
  serializeObject e := Text.ofString ("\x7b\"AggregateId\":" ++ toString e.aggregateId ++
    ",\"Version\":" ++ toString e.version.toInt ++ ",\"ShardKey\":" ++
    toString e.shardKey.toInt ++ ",\"Note\":\"" ++ e.payload ++ "\"\x7d")
  deserializeObject t s :=
    if s = Text.ofString
        "\x7b\"AggregateId\":1,\"Version\":1,\"ShardKey\":0,\"Note\":\"a\"\x7d" then
      .ok (some ⟨t, 1, 1, 0, "a"⟩)
    else .error .json
  serialize_ne_nil e := by
    simp [Text.ofString, String.toList_append, Text.ofChar]
  instanceOf t s e h := by
    split at h
    · cases h
      rfl
    · cases h

theorem decodes_orderShipped : Decodes ordersJson [ordersAssembly]
    (orderEvent "Orders.Sales" "OrderShipped") := by
  have hjson : ordersJson.deserializeObject (orderEvent "Orders.Sales" "OrderShipped").type
      (ordersJson.serializeObject (orderEvent "Orders.Sales" "OrderShipped")) =
        .ok (some (orderEvent "Orders.Sales" "OrderShipped")) := rfl
  refine (decodes_iff hjson).mpr ⟨⟨by decide, ordersAssembly, rfl, by decide, by decide⟩, rfl⟩

/-- The other class with the simple name is in the assembly, too: `Single` throws. -/
theorem not_decodes_orderCreated :
    ordersJson.deserializeObject (orderEvent "Orders.Sales" "OrderCreated").type
        (ordersJson.serializeObject (orderEvent "Orders.Sales" "OrderCreated")) =
        .ok (some (orderEvent "Orders.Sales" "OrderCreated")) ∧
      ordersJson.fromEventData [ordersAssembly]
        (ordersJson.toEventData (orderEvent "Orders.Sales" "OrderCreated")) =
        .error .invalidOperation ∧
      ¬ Decodes ordersJson [ordersAssembly] (orderEvent "Orders.Sales" "OrderCreated") := by
  refine ⟨rfl, rfl, ?_⟩
  intro h
  cases h

end Orders

end Milde.EventStore
