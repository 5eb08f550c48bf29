/-
  Milde.EventSourcing.Aggregate

  The aggregate object and its events (EventSourcing/Aggregates/Aggregate.cs,
  EventSourcing/Events/AggregateEvent.cs).

  `int` is `Int32`, so `Version + 1` wraps as it does in the source.  A method that
  can throw after it has written to its receiver returns an `Outcome`: the object
  as the call leaves it, on both ways out.

  The domain part of an aggregate (`CallApply`) is a parameter.  `Domain` allows it
  to throw; `TotalDomain` is the case of a deterministic `Apply` that cannot.  Where
  nothing throws, a domain part behaves as its total one (`applyEvents_total`).
-/

namespace Milde.EventSourcing

/-- A runtime type.  Its identity is the whole record; streams and messages carry
    only parts of it. -/
structure ClrType where
  assembly : String
  ns : String
  name : String
deriving DecidableEq, Repr

/-- An aggregate event: its runtime type, the three fields of `IAggregateEvent` and
    the data its class adds. -/
structure AggregateEvent (Id P : Type) where
  type : ClrType
  aggregateId : Id
  version : Int32
  shardKey : Int32
  payload : P
deriving DecidableEq, Repr

/-- How a call on a mutable object ends, with the object it leaves behind. -/
inductive Outcome (α : Type) where
  | returned (a : α)
  | threw (a : α)
deriving DecidableEq, Repr

/-- The object after the call, thrown or not. -/
def Outcome.object {α : Type} : Outcome α → α
  | returned a => a
  | threw a => a

/-- The domain part of an aggregate class: the state of a new object and `CallApply`, which
    is taken to make no calls of `ApplyEvent` on its own object. -/
structure Domain (Id S P : Type) where
  init : S
  callApply : S → AggregateEvent Id P → Outcome S

/-- A domain part whose `Apply` is a function of state and event and never throws. -/
structure TotalDomain (Id S P : Type) where
  init : S
  apply : S → AggregateEvent Id P → S

/-- A total domain part as a domain part. -/
def TotalDomain.domain {Id S P : Type} (d : TotalDomain Id S P) : Domain Id S P where
  init := d.init
  callApply s e := .returned (d.apply s e)

/-- A domain part with what `CallApply` leaves behind, thrown or not. -/
def Domain.total {Id S P : Type} (d : Domain Id S P) : TotalDomain Id S P where
  init := d.init
  apply s e := (d.callApply s e).object

/-- `CallApply` takes the events one after the other and never throws. -/
def Domain.Accepts {Id S P : Type} (d : Domain Id S P) : S → List (AggregateEvent Id P) → Prop
  | _, [] => True
  | s, e :: es => ∃ s', d.callApply s e = .returned s' ∧ d.Accepts s' es

/-- An aggregate object; `changes` is the private list `_changes`. -/
structure Aggregate (Id S P : Type) where
  id : Id
  version : Int32
  shardKey : Int32
  state : S
  changes : List (AggregateEvent Id P)
deriving DecidableEq, Repr

/-- What a reader of an aggregate sees: version, shard key and domain state. -/
structure View (S : Type) where
  version : Int32
  shardKey : Int32
  state : S
deriving DecidableEq, Repr

variable {Id S P : Type}

/-- Events are accepted iff the first of them are, and then the others. -/
theorem Domain.accepts_append {d : Domain Id S P} {s : S} {es fs : List (AggregateEvent Id P)} :
    d.Accepts s (es ++ fs) ↔ d.Accepts s es ∧ d.Accepts (es.foldl d.total.apply s) fs := by
  induction es generalizing s with
  | nil =>
      show d.Accepts s fs ↔ True ∧ d.Accepts s fs
      rw [true_and]
  | cons e es ih =>
      have hfold : ∀ s', d.callApply s e = .returned s' → d.total.apply s e = s' := by
        intro s' hs'
        show (d.callApply s e).object = s'
        rw [hs']
        rfl
      refine ⟨?_, ?_⟩
      · rintro ⟨s', hs', hrest⟩
        obtain ⟨hes, hfs⟩ := ih.mp hrest
        refine ⟨⟨s', hs', hes⟩, ?_⟩
        rw [List.foldl_cons, hfold s' hs']
        exact hfs
      · rintro ⟨⟨s', hs', hes⟩, hfs⟩
        rw [List.foldl_cons, hfold s' hs'] at hfs
        exact ⟨s', hs', ih.mpr ⟨hes, hfs⟩⟩

theorem Domain.Accepts.of_isPrefix {d : Domain Id S P} {s : S}
    {es fs : List (AggregateEvent Id P)} (h : d.Accepts s fs) (hpre : es <+: fs) :
    d.Accepts s es := by
  obtain ⟨tail, rfl⟩ := hpre
  exact (Domain.accepts_append.mp h).1

theorem TotalDomain.accepts (d : TotalDomain Id S P) (s : S) (es : List (AggregateEvent Id P)) :
    d.domain.Accepts s es := by
  induction es generalizing s with
  | nil => trivial
  | cons e es ih => exact ⟨d.apply s e, rfl, ih _⟩

namespace Aggregate

/-- `Aggregate(Guid id, int shardKey)`: a new object at version 0. -/
def new (d : Domain Id S P) (id : Id) (shardKey : Int32) : Aggregate Id S P :=
  { id, version := 0, shardKey, state := d.init, changes := [] }

/-- `Aggregate(Guid id, int version, int shardKey)` with the domain state beside it:
    the constructor a JSON snapshot is read back with. -/
def ofSnapshot (id : Id) (v : View S) : Aggregate Id S P :=
  { id, version := v.version, shardKey := v.shardKey, state := v.state, changes := [] }

def view (a : Aggregate Id S P) : View S := ⟨a.version, a.shardKey, a.state⟩

def getUncommitedChanges (a : Aggregate Id S P) : List (AggregateEvent Id P) := a.changes

def markAsCommited (a : Aggregate Id S P) : Aggregate Id S P := { a with changes := [] }

/-- The last two statements of `ApplyEvent`: `CallApply`, then the event joins the
    uncommitted changes unless `CallApply` threw. -/
def record (d : Domain Id S P) (a : Aggregate Id S P) (e : AggregateEvent Id P) :
    Outcome (Aggregate Id S P) :=
  match d.callApply a.state e with
  | .returned s => .returned { a with state := s, changes := a.changes ++ [e] }
  | .threw s => .threw { a with state := s }

/-- `Aggregate.ApplyEvent`.  The version is written before the shard key is checked,
    so the second `throw` leaves the object at the event's version. -/
def applyEvent [DecidableEq Id] (d : Domain Id S P) (a : Aggregate Id S P)
    (e : AggregateEvent Id P) : Outcome (Aggregate Id S P) :=
  if a.id ≠ e.aggregateId then .returned a
  else if a.version + 1 ≠ e.version then .threw a
  else
    let a := { a with version := e.version }
    if e.version = 1 then record d { a with shardKey := e.shardKey } e
    else if a.shardKey ≠ e.shardKey then .threw a
    else record d a e

/-- `events.ForEach(e => aggregate.ApplyEvent(e))`: stops at the first throw. -/
def applyEvents [DecidableEq Id] (d : Domain Id S P) :
    Aggregate Id S P → List (AggregateEvent Id P) → Outcome (Aggregate Id S P)
  | a, [] => .returned a
  | a, e :: es =>
      match applyEvent d a e with
      | .returned a => applyEvents d a es
      | .threw a => .threw a

/-- The event a command raises on an aggregate: own id, next version, own shard key. -/
def nextEvent (a : Aggregate Id S P) (type : ClrType) (payload : P) : AggregateEvent Id P :=
  { type, aggregateId := a.id, version := a.version + 1, shardKey := a.shardKey, payload }

variable [DecidableEq Id]

@[simp] theorem applyEvents_nil (d : Domain Id S P) (a : Aggregate Id S P) :
    applyEvents d a [] = .returned a := rfl

theorem applyEvents_cons_of_returned {d : Domain Id S P} {a a' : Aggregate Id S P}
    {e : AggregateEvent Id P} (h : applyEvent d a e = .returned a')
    (es : List (AggregateEvent Id P)) : applyEvents d a (e :: es) = applyEvents d a' es := by
  simp only [applyEvents, h]

/-- An event of another aggregate is ignored. -/
theorem applyEvent_foreign {d : Domain Id S P} {a : Aggregate Id S P}
    {e : AggregateEvent Id P} (h : a.id ≠ e.aggregateId) : applyEvent d a e = .returned a := by
  rw [applyEvent, if_pos h]

/-- An own event is refused unless it carries the next version. -/
theorem applyEvent_of_version_ne {d : Domain Id S P} {a : Aggregate Id S P}
    {e : AggregateEvent Id P} (hid : a.id = e.aggregateId) (h : a.version + 1 ≠ e.version) :
    applyEvent d a e = .threw a := by
  rw [applyEvent, if_neg (not_not_intro hid), if_pos h]

/-- **What `ApplyEvent` does to an own event.** It returns iff the event is the next one,
    carries the object's shard key unless it is the first, and `CallApply` takes it; then
    the event joins the changes. -/
theorem applyEvent_own_iff {d : Domain Id S P} {a a' : Aggregate Id S P}
    {e : AggregateEvent Id P} (hid : e.aggregateId = a.id) :
    applyEvent d a e = .returned a' ↔
      e.version = a.version + 1 ∧ (e.version = 1 ∨ e.shardKey = a.shardKey) ∧
        ∃ s, d.callApply a.state e = .returned s ∧
          a' = ⟨a.id, e.version, e.shardKey, s, a.changes ++ [e]⟩ := by
  have hrec : ∀ b : Aggregate Id S P, record d b e = .returned a' ↔
      ∃ s, d.callApply b.state e = .returned s ∧
        a' = ⟨b.id, b.version, b.shardKey, s, b.changes ++ [e]⟩ := by
    intro b
    unfold record
    cases hcall : d.callApply b.state e with
    | returned s => simp [eq_comm]
    | threw s => simp
  rw [applyEvent, if_neg (not_not_intro hid.symm)]
  by_cases hv : e.version = a.version + 1
  · rw [if_neg (not_not_intro hv.symm)]
    dsimp only
    by_cases h1 : e.version = 1
    · rw [if_pos h1, hrec]
      exact ⟨fun h => ⟨hv, Or.inl h1, h⟩, fun h => h.2.2⟩
    · by_cases hs : e.shardKey = a.shardKey
      · rw [if_neg h1, if_neg (not_not_intro hs.symm), hrec, hs]
        exact ⟨fun h => ⟨hv, Or.inr rfl, h⟩, fun h => h.2.2⟩
      · rw [if_neg h1, if_pos (Ne.symm hs)]
        exact iff_of_false nofun fun h => h.2.1.elim h1 hs
  · rw [if_pos (Ne.symm hv)]
    exact iff_of_false nofun fun h => hv h.1

/-- `ApplyEvent` of an own event: what an accepted one does to the object. -/
theorem applyEvent_of_next (d : TotalDomain Id S P) {a : Aggregate Id S P}
    {e : AggregateEvent Id P} (hid : e.aggregateId = a.id) (hv : e.version = a.version + 1)
    (hs : e.version = 1 ∨ e.shardKey = a.shardKey) :
    applyEvent d.domain a e = .returned
      { id := a.id, version := e.version, shardKey := e.shardKey,
        state := d.apply a.state e, changes := a.changes ++ [e] } :=
  (applyEvent_own_iff hid).mpr ⟨hv, hs, d.apply a.state e, rfl, rfl⟩

/-- What an own event that does not throw was and did: it was the next one, it carried
    the object's shard key unless it is the first, and it joined the changes. -/
theorem applyEvent_eq_returned {d : Domain Id S P} {a a' : Aggregate Id S P}
    {e : AggregateEvent Id P} (hid : e.aggregateId = a.id)
    (h : applyEvent d a e = .returned a') :
    e.version = a.version + 1 ∧ (e.version = 1 ∨ e.shardKey = a.shardKey) ∧
      a'.id = a.id ∧ a'.version = e.version ∧ a'.changes = a.changes ++ [e] := by
  obtain ⟨hv, hs, s, -, rfl⟩ := (applyEvent_own_iff hid).mp h
  exact ⟨hv, hs, rfl, rfl, rfl⟩

/-- Events applied in two parts. -/
theorem applyEvents_append {d : Domain Id S P} {a a' : Aggregate Id S P}
    {es fs : List (AggregateEvent Id P)} (h : a.applyEvents d es = .returned a') :
    a.applyEvents d (es ++ fs) = a'.applyEvents d fs := by
  induction es generalizing a with
  | nil =>
      cases h
      rfl
  | cons e es ih =>
      cases he : applyEvent d a e with
      | threw b => simp [applyEvents, he] at h
      | returned b =>
          rw [applyEvents_cons_of_returned he] at h
          rw [List.cons_append, applyEvents_cons_of_returned he]
          exact ih h

-- ============================================================================
-- Where nothing throws
-- ============================================================================

section Total

variable {d : Domain Id S P} {a a' : Aggregate Id S P} {e : AggregateEvent Id P}

/-- An own event that does not throw has been accepted by `CallApply`. -/
theorem callApply_of_returned (hid : e.aggregateId = a.id)
    (h : applyEvent d a e = .returned a') : d.callApply a.state e = .returned a'.state := by
  obtain ⟨-, -, s, hcall, rfl⟩ := (applyEvent_own_iff hid).mp h
  exact hcall

/-- The total domain part takes an accepted event the same way. -/
theorem applyEvent_of_accepts {s : S} (h : d.callApply a.state e = .returned s) :
    applyEvent d a e = applyEvent d.total.domain a e := by
  have hrec : ∀ b : Aggregate Id S P, b.state = a.state →
      record d b e = record d.total.domain b e := by
    intro b hb
    simp only [record, Domain.total, TotalDomain.domain, hb, h, Outcome.object]
  simp only [applyEvent]
  rw [hrec { a with version := e.version, shardKey := e.shardKey } rfl,
    hrec { a with version := e.version } rfl]

theorem applyEvent_total (h : applyEvent d a e = .returned a') :
    applyEvent d.total.domain a e = .returned a' := by
  by_cases hid : e.aggregateId = a.id
  · rw [← applyEvent_of_accepts (callApply_of_returned hid h)]
    exact h
  · rw [applyEvent_foreign (Ne.symm hid)] at h ⊢
    exact h

theorem applyEvents_total {es : List (AggregateEvent Id P)}
    (h : applyEvents d a es = .returned a') : applyEvents d.total.domain a es = .returned a' := by
  induction es generalizing a with
  | nil => exact h
  | cons e es ih =>
      cases he : applyEvent d a e with
      | threw b => simp [applyEvents, he] at h
      | returned b =>
          rw [applyEvents_cons_of_returned he] at h
          rw [applyEvents_cons_of_returned (applyEvent_total he)]
          exact ih h

end Total

end Aggregate

end Milde.EventSourcing
