/-
  Milde.UserManagement.Service

  The sample service (samples/Sample.UserManagement): the handlers of
  `IUserManagementService` over the repository, which serves one request after another.

  A handler that changes a user saves it also when the command has raised nothing, so a
  reply says that all of the user is stored: the user that is sent back is the replay of
  its stream, and stays so (`acknowledged_stored`).  No such promise holds for what `Get`
  lists.
-/
import Milde.AggregateCache.Durability
import Milde.Common.Dictionary

namespace Milde.UserManagement

open Milde.EventSourcing Milde.EventStore Milde.AggregateCache

variable {Id : Type}

structure UserDto (Id : Type) where
  id : Id
  firstName : Option String
  lastName : Option String
  age : Int32
deriving DecidableEq, Repr

/-- `ToDto`: the mapper fills the constructor's parameters from the properties of the same
    name. -/
def User.toDto (u : User Id) : UserDto Id :=
  ⟨u.id, u.state.firstName, u.state.lastName, u.state.age⟩

/-- The state of a user that a reply shows. -/
def UserDto.state (dto : UserDto Id) : UserState := ⟨dto.firstName, dto.lastName, dto.age⟩

/-- A call of a method of `IUserManagementService`. -/
inductive Call (Id : Type) where
  | get
  | createUser (firstName lastName : Option String) (age : Int64)
  | changeUserFirstName (aggregateId : Id) (firstName : Option String)
  | changeUserLastName (aggregateId : Id) (lastName : Option String)
  | changeUserAge (aggregateId : Id) (age : Int32)
  | throwException (aggregateId : Id)

inductive Reply (Id : Type) where
  | users (dtos : List (UserDto Id))
  | user (dto : UserDto Id)

/-- What a handler throws: an exception of its own, that of `ApplyEvent`, or that of a call
    inside `Save`. -/
inductive Thrown where
  | exception (message : String)
  | notImplementedException
  | invalidOperationException
  | ofSave

abbrev Answer (Id : Type) := Except Thrown (Reply Id)

/-- A call with all that is not of the caller's choice: the fresh id, the random shard key,
    which calls inside `Save` throw, and whether `T-Ids` drops the second entry. -/
structure Invocation (Id : Type) where
  call : Call Id
  newGuid : Id
  shardKey : Int32
  fails : SaveCall → Bool
  drop : Bool

/-- One service process; the in-memory cache is a dictionary. -/
structure Service (Id : Type) where
  store : Store Id UserEvent
  redis : Id → Option (View UserState)
  memory : Dictionary Id (User Id)

/-- `typeof(User).Name`. -/
def aggregateType : String := "User"

namespace Service

variable [DecidableEq Id]

/-- `Save`, whether it returns, and the object as it leaves it. -/
def save (s : Service Id) (inv : Invocation Id) (u : User Id) : Bool × Service Id × User Id :=
  match saveAggregate aggregateType inv.drop inv.fails s.store u with
  | .threw (store, u) => (false, { s with store }, u)
  | .returned (store, u) =>
      if inv.fails .redis then (false, { s with store }, u)
      else
        (true, { store, redis := Function.update s.redis u.id (some u.view),
                 memory := s.memory.set u.id u }, u)

/-- `Get`. -/
def get (s : Service Id) : Answer Id := .ok (.users (s.memory.values.map User.toDto))

/-- `CreateUser`, which narrows the age to an `int`. -/
def createUser (s : Service Id) (inv : Invocation Id) (firstName lastName : Option String)
    (age : Int64) : Answer Id × Service Id :=
  match User.create inv.newGuid inv.shardKey firstName lastName age.toInt32 with
  | .threw _ => (.error .invalidOperationException, s)
  | .returned u =>
      match s.save inv u with
      | (false, s, _) => (.error .ofSave, s)
      | (true, s, u) => (.ok (.user u.toDto), s)

/-- The cached object of the user is `u` now. -/
def mutate (s : Service Id) (id : Id) (u : User Id) : Service Id :=
  { s with memory := s.memory.set id u }

/-- The shape of the three handlers that change a user. -/
def changeUser [ToString Id] (s : Service Id) (inv : Invocation Id) (aggregateId : Id)
    (command : User Id → Outcome (User Id)) : Answer Id × Service Id :=
  match s.memory.find aggregateId with
  | none => (.error (.exception s!"User with ID {aggregateId} not found"), s)
  | some u =>
      match command u with
      | .threw u => (.error .invalidOperationException, s.mutate aggregateId u)
      | .returned u =>
          match s.save inv u with
          | (false, s, u) => (.error .ofSave, s.mutate aggregateId u)
          | (true, s, u) => (.ok (.user u.toDto), s.mutate aggregateId u)

def changeUserFirstName [ToString Id] (s : Service Id) (inv : Invocation Id) (aggregateId : Id)
    (firstName : Option String) : Answer Id × Service Id :=
  s.changeUser inv aggregateId fun u => u.changeFirstName firstName

def changeUserLastName [ToString Id] (s : Service Id) (inv : Invocation Id) (aggregateId : Id)
    (lastName : Option String) : Answer Id × Service Id :=
  s.changeUser inv aggregateId fun u => u.changeLastName lastName

def changeUserAge [ToString Id] (s : Service Id) (inv : Invocation Id) (aggregateId : Id)
    (age : Int32) : Answer Id × Service Id :=
  s.changeUser inv aggregateId fun u => u.changeAge age

def handle [ToString Id] (s : Service Id) (inv : Invocation Id) : Answer Id × Service Id :=
  match inv.call with
  | .get => (s.get, s)
  | .createUser firstName lastName age => s.createUser inv firstName lastName age
  | .changeUserFirstName aggregateId firstName => s.changeUserFirstName inv aggregateId firstName
  | .changeUserLastName aggregateId lastName => s.changeUserLastName inv aggregateId lastName
  | .changeUserAge aggregateId age => s.changeUserAge inv aggregateId age
  | .throwException _ => (.error .notImplementedException, s)

/-- `Guid.NewGuid` never yields an id that is in use. -/
def Fresh (s : Service Id) (id : Id) : Prop :=
  s.memory.find id = none ∧ s.store.aggregate id = []

instance (s : Service Id) (id : Id) : Decidable (s.Fresh id) :=
  decidable_of_iff ((s.memory.find id).isNone ∧ (s.store.aggregate id).isEmpty) (by simp [Fresh])

/-- One call, with the service as it leaves it. -/
def step [ToString Id] (s : Service Id) (inv : Invocation Id) : Option (Service Id) :=
  if s.Fresh inv.newGuid then some (s.handle inv).2 else none

/-- The process over its repository that the service is. -/
def process (s : Service Id) : Process Id UserState UserEvent :=
  ⟨s.store, s.redis, s.memory.find⟩

/-- The versions that a call can reach are in the range of `int`. -/
def InRange (s : Service Id) : Prop :=
  ∀ id, (s.store.aggregate id).length + 1 < 2 ^ 31 - 1

end Service

/-- What the caller has asked for, and the user it gets back. -/
def Invocation.Asks (inv : Invocation Id) (dto : UserDto Id) : Prop :=
  match inv.call with
  | .get => False
  | .createUser firstName lastName age => dto = ⟨inv.newGuid, firstName, lastName, age.toInt32⟩
  | .changeUserFirstName aggregateId firstName => dto.id = aggregateId ∧ dto.firstName = firstName
  | .changeUserLastName aggregateId lastName => dto.id = aggregateId ∧ dto.lastName = lastName
  | .changeUserAge aggregateId age => dto.id = aggregateId ∧ dto.age = age
  | .throwException _ => False

-- ============================================================================
-- The service as a process
-- ============================================================================

/-- Of the calls that change a user: the user, and the event that the command raises unless
    it would change nothing. -/
def Call.event : Call Id → Option (Id × UserEvent)
  | .changeUserFirstName aggregateId firstName => some (aggregateId, .firstNameChanged firstName)
  | .changeUserLastName aggregateId lastName => some (aggregateId, .lastNameChanged lastName)
  | .changeUserAge aggregateId age => some (aggregateId, .ageChanged age)
  | _ => none

/-- The events of a command on `u`. -/
def User.events (u : User Id) (e : UserEvent) : List (ClrType × UserEvent) :=
  if u.state.apply e = u.state then [] else [(e.type, e)]

/-- The request to the process that a call amounts to. -/
def Service.request (s : Service Id) (inv : Invocation Id) : Option (Request Id UserEvent) :=
  match inv.call with
  | .createUser firstName lastName age =>
      let e : UserEvent := .created firstName lastName age.toInt32
      some (.create inv.newGuid inv.shardKey [(e.type, e)] inv.fails inv.drop)
  | call =>
      call.event.map fun (id, e) =>
        .change id (((s.memory.find id).map fun u => u.events e).getD []) inv.fails inv.drop

section Simulation

variable [DecidableEq Id] {s s' : Service Id} {inv : Invocation Id}

theorem User.raise_eq_raiseAll (u : User Id) (e : UserEvent) :
    u.raise e = raiseAll userDomain.domain u [(e.type, e)] := by
  simp only [User.raise, raiseAll]
  split <;> assumption

/-- A command, as requests have it. -/
theorem User.change_eq_raiseAll (u : User Id) (e : UserEvent) :
    u.change (u.state.apply e = u.state) e = raiseAll userDomain.domain u (u.events e) := by
  by_cases hsame : u.state.apply e = u.state
  · simp [User.change, User.events, hsame, raiseAll]
  · simp only [User.change, User.events, hsame, decide_false, Bool.false_eq_true, if_false,
      User.raise_eq_raiseAll]

omit [DecidableEq Id] in
/-- The commands compare the one field that their event changes. -/
theorem UserState.apply_eq_self (u : UserState) :
    (∀ firstName, u.apply (.firstNameChanged firstName) = u ↔ u.firstName = firstName) ∧
    (∀ lastName, u.apply (.lastNameChanged lastName) = u ↔ u.lastName = lastName) ∧
    ∀ age, u.apply (.ageChanged age) = u ↔ u.age = age := by
  cases u
  simp [UserState.apply, eq_comm]

theorem Service.handle_of_event [ToString Id] {id : Id} {e : UserEvent}
    (h : inv.call.event = some (id, e)) :
    s.handle inv =
      s.changeUser inv id fun u => u.change (u.state.apply e = u.state) e := by
  cases hcall : inv.call with
  | get => simp [hcall, Call.event] at h
  | createUser firstName lastName age => simp [hcall, Call.event] at h
  | throwException aggregateId => simp [hcall, Call.event] at h
  | changeUserFirstName aggregateId firstName =>
      simp only [hcall, Call.event, Option.some.injEq, Prod.mk.injEq] at h
      obtain ⟨rfl, rfl⟩ := h
      simp only [Service.handle, hcall, Service.changeUserFirstName, User.changeFirstName,
        (UserState.apply_eq_self _).1]
  | changeUserLastName aggregateId lastName =>
      simp only [hcall, Call.event, Option.some.injEq, Prod.mk.injEq] at h
      obtain ⟨rfl, rfl⟩ := h
      simp only [Service.handle, hcall, Service.changeUserLastName, User.changeLastName,
        (UserState.apply_eq_self _).2.1]
  | changeUserAge aggregateId age =>
      simp only [hcall, Call.event, Option.some.injEq, Prod.mk.injEq] at h
      obtain ⟨rfl, rfl⟩ := h
      simp only [Service.handle, hcall, Service.changeUserAge, User.changeAge,
        (UserState.apply_eq_self _).2.2]

/-- `Save` of the service is `Save` of the process. -/
theorem Service.save_process (s : Service Id) (inv : Invocation Id) (u : User Id) :
    (s.save inv u).2.1.process = (s.process.save aggregateType inv.drop inv.fails u).1 ∧
      (s.save inv u).2.2 = (s.process.save aggregateType inv.drop inv.fails u).2 ∧
      (s.save inv u).1 = s.process.saves aggregateType inv.drop inv.fails u := by
  have hstore : s.process.store = s.store := rfl
  unfold Service.save Process.save Process.saves
  rw [hstore]
  cases saveAggregate aggregateType inv.drop inv.fails s.store u with
  | threw r => exact ⟨rfl, rfl, rfl⟩
  | returned r =>
      by_cases hredis : inv.fails .redis = true
      · simp only [Process.cache, hredis, if_true]
        exact ⟨rfl, trivial, rfl⟩
      · simp only [Process.cache, hredis, Bool.false_eq_true, if_false]
        exact ⟨rfl, trivial, rfl⟩

/-- A save leaves the user's id and data as they are. -/
theorem Service.save_object (s : Service Id) (inv : Invocation Id) (u : User Id) :
    (s.save inv u).2.2.id = u.id ∧ (s.save inv u).2.2.state = u.state := by
  unfold Service.save
  rcases saveAggregate_cases inv.fails aggregateType inv.drop s.store u with
    ⟨store, hsave, -, -⟩ | ⟨store, -, -, -, -, ⟨hsave, -⟩ | ⟨hsave, -⟩⟩
  · rw [hsave]
    exact ⟨rfl, rfl⟩
  · rw [hsave]
    exact ⟨rfl, rfl⟩
  · rw [hsave]
    by_cases hredis : inv.fails .redis = true
    · simp only [hredis, if_true]
      exact ⟨rfl, rfl⟩
    · simp only [hredis, Bool.false_eq_true, if_false]
      exact ⟨rfl, rfl⟩

theorem Service.changeUser_none [ToString Id] {id : Id} {command : User Id → Outcome (User Id)}
    (h : s.memory.find id = none) :
    s.changeUser inv id command =
      (.error (.exception s!"User with ID {id} not found"), s) := by
  simp only [Service.changeUser, h]

/-- A handler that changes a user, in terms of the save. -/
theorem Service.changeUser_returned [ToString Id] {id : Id} {u u' : User Id}
    {command : User Id → Outcome (User Id)} (h : s.memory.find id = some u)
    (hcommand : command u = .returned u') :
    s.changeUser inv id command =
      (if (s.save inv u').1 then .ok (.user (s.save inv u').2.2.toDto) else .error .ofSave,
        (s.save inv u').2.1.mutate id (s.save inv u').2.2) := by
  simp only [Service.changeUser, h, hcommand]
  rcases s.save inv u' with ⟨_ | _, s', u''⟩
  · rfl
  · rfl

theorem Service.mutate_process (s : Service Id) (id : Id) (u : User Id) :
    (s.mutate id u).process = s.process.mutate id u := rfl

theorem Service.changeUser_process [ToString Id] (s : Service Id) (inv : Invocation Id) (id : Id)
    (e : UserEvent) :
    s.process.step userDomain.domain aggregateType
        (.change id (((s.memory.find id).map fun u => u.events e).getD []) inv.fails inv.drop) =
      some (s.changeUser inv id fun u => u.change (u.state.apply e = u.state) e).2.process := by
  have hget : s.process.get id = s.memory.find id := rfl
  cases hfind : s.memory.find id with
  | none =>
      rw [changeUser_none hfind]
      simp only [Process.step, hget, hfind]
  | some u =>
      simp only [Process.step, hget, hfind, Option.map_some, Option.getD_some]
      have hchange := u.change_eq_raiseAll e
      cases hraise : raiseAll userDomain.domain u (u.events e) with
      | threw u' =>
          rw [hraise] at hchange
          simp only [changeUser, hfind, hchange]
          rfl
      | returned u' =>
          rw [hraise] at hchange
          obtain ⟨hprocess, hobject, -⟩ := s.save_process inv u'
          rw [changeUser_returned hfind hchange]
          simp only [mutate_process, hprocess, hobject]

theorem Service.createUser_returned {firstName lastName : Option String} {age : Int64}
    {u : User Id} (h : User.create inv.newGuid inv.shardKey firstName lastName age.toInt32 =
      .returned u) :
    s.createUser inv firstName lastName age =
      (if (s.save inv u).1 then .ok (.user (s.save inv u).2.2.toDto) else .error .ofSave,
        (s.save inv u).2.1) := by
  simp only [createUser, h]
  rcases s.save inv u with ⟨_ | _, s', u'⟩
  · rfl
  · rfl

theorem Service.createUser_process (hfresh : s.Fresh inv.newGuid)
    (firstName lastName : Option String) (age : Int64) :
    s.process.step userDomain.domain aggregateType
        (.create inv.newGuid inv.shardKey
          [((UserEvent.created firstName lastName age.toInt32).type,
            .created firstName lastName age.toInt32)] inv.fails inv.drop) =
      some (s.createUser inv firstName lastName age).2.process := by
  have hmemory : s.process.memory inv.newGuid = none := hfresh.1
  have hstream : s.process.store.aggregate inv.newGuid = [] := hfresh.2
  simp only [Process.step, hmemory, hstream, Option.isNone_none, List.isEmpty_nil, Bool.and_self,
    if_true, ← User.raise_eq_raiseAll]
  cases hraise : User.raise (Aggregate.new userDomain.domain inv.newGuid inv.shardKey)
      (.created firstName lastName age.toInt32) with
  | threw u =>
      simp only [createUser, User.create, hraise]
  | returned u =>
      obtain ⟨hprocess, -⟩ := s.save_process inv u
      rw [createUser_returned hraise]
      exact congrArg some hprocess.symm

/-- A call is a request to the process, or does nothing. -/
theorem Service.step_process [ToString Id] (hstep : s.step inv = some s') :
    (s.request inv = none ∧ s' = s) ∨
      ∃ r, s.request inv = some r ∧
        s.process.step userDomain.domain aggregateType r = some s'.process := by
  unfold Service.step at hstep
  split at hstep
  case isFalse => cases hstep
  rename_i hfresh
  obtain rfl := Option.some.inj hstep
  cases hevent : inv.call.event with
  | some e =>
      rw [handle_of_event hevent]
      refine Or.inr ⟨_, ?_, s.changeUser_process inv e.1 e.2⟩
      cases hcall : inv.call with
      | createUser firstName lastName age => simp [hcall, Call.event] at hevent
      | _ =>
          rw [hcall] at hevent
          simp only [request, hcall, hevent, Option.map_some]
  | none =>
      cases hcall : inv.call with
      | get => exact Or.inl ⟨by simp [request, hcall, Call.event], by rw [handle, hcall]⟩
      | throwException aggregateId =>
          exact Or.inl ⟨by simp [request, hcall, Call.event], by rw [handle, hcall]⟩
      | createUser firstName lastName age =>
          refine Or.inr ⟨_, (by simp only [request, hcall]; rfl), ?_⟩
          rw [handle, hcall]
          exact createUser_process hfresh firstName lastName age
      | changeUserFirstName aggregateId firstName => simp [hcall, Call.event] at hevent
      | changeUserLastName aggregateId lastName => simp [hcall, Call.event] at hevent
      | changeUserAge aggregateId age => simp [hcall, Call.event] at hevent

end Simulation

-- ============================================================================
-- What a reply says
-- ============================================================================

section Acknowledged

variable [DecidableEq Id] {s s' s'' : Service Id} {inv : Invocation Id} {dto : UserDto Id}

theorem User.raise_state {u u' : User Id} {e : UserEvent} (h : u.raise e = .returned u') :
    u'.id = u.id ∧ u'.state = u.state.apply e := by
  have hcall := Aggregate.callApply_of_returned rfl h
  obtain ⟨-, -, hid, -⟩ := Aggregate.applyEvent_eq_returned rfl h
  exact ⟨hid, (Outcome.returned.inj hcall).symm⟩

theorem User.change_state {u u' : User Id} {e : UserEvent}
    (h : u.change (u.state.apply e = u.state) e = .returned u') :
    u'.id = u.id ∧ u'.state = u.state.apply e := by
  unfold User.change at h
  split at h
  · rename_i hsame
    obtain rfl := Outcome.returned.inj h
    exact ⟨rfl, (of_decide_eq_true hsame).symm⟩
  · exact raise_state h

/-- The cached object of a user is the replay of its stream, and nothing of it is left to
    save. -/
structure Saved (s : Service Id) (id : Id) (u : User Id) : Prop where
  cached : s.memory.find id = some u
  replay : ∃ sk, u = built userDomain id sk (s.store.aggregate id) []
  history : History id (s.store.aggregate id)
  nonempty : s.store.aggregate id ≠ []

/-- Applying an event a second time changes nothing. -/
theorem UserState.apply_apply (u : UserState) (e : UserEvent) :
    (u.apply e).apply e = u.apply e := by
  cases e <;> rfl

omit [DecidableEq Id] in
theorem User.toDto_state (u : User Id) : u.toDto.state = u.state := rfl

theorem Saved.mutate {id : Id} {u : User Id} (h : Saved s id u) : Saved (s.mutate id u) id u :=
  { h with cached := Function.update_self .. }

/-- A save that returns. -/
theorem Service.save_saved {u : User Id} {id : Id} {sk : Int32}
    {loaded tail changes : List (AggregateEvent Id UserEvent)}
    (h : CachedBy userDomain s.process.store id u sk loaded tail changes)
    (hne : loaded ++ (tail ++ changes) ≠ []) (hlen : (s.store.aggregate id).length < 2 ^ 31 - 1)
    (hreturns : (s.save inv u).1 = true) :
    Saved (s.save inv u).2.1 id (s.save inv u).2.2 ∧
      (s.save inv u).2.1.store.aggregate id = loaded ++ changes := by
  obtain ⟨hprocess, hobject, hsaves⟩ := s.save_process inv u
  rw [hsaves] at hreturns
  obtain ⟨hnil, hbuilt, hmemory, hstream, hhist⟩ := h.saved hlen hreturns
  rw [← hobject] at hbuilt
  rw [← hprocess] at hstream hmemory
  have hstream : (s.save inv u).2.1.store.aggregate id = loaded ++ changes := hstream
  refine ⟨⟨?_, ⟨sk, ?_⟩, ?_, ?_⟩, hstream⟩
  · rw [hbuilt]
    exact hmemory
  · rw [hstream]
    exact hbuilt
  · rw [hstream]
    exact hhist
  · rw [hstream]
    rw [hnil, List.nil_append] at hne
    exact hne

/-- The reply of a handler that changes a user. -/
theorem Service.changeUser_saved [ToString Id] (h : s.process.Sound userDomain)
    (hrange : s.InRange) {id : Id} {e : UserEvent}
    (hanswer : (s.changeUser inv id fun u => u.change (u.state.apply e = u.state) e).1 =
      .ok (.user dto)) :
    dto.state.apply e = dto.state ∧ ∃ u, dto = u.toDto ∧
      Saved (s.changeUser inv id fun u => u.change (u.state.apply e = u.state) e).2 id u := by
  cases hfind : s.memory.find id with
  | none =>
      rw [changeUser_none hfind] at hanswer
      cases hanswer
  | some u =>
      obtain ⟨hne, sk, loaded, tail, changes, hby⟩ := h.cached id u hfind
      obtain ⟨raised, u', -, hraise, hby'⟩ := hby.raiseAll (u.events e)
      rw [← User.change_eq_raiseAll] at hraise
      rw [changeUser_returned hfind hraise] at hanswer ⊢
      obtain ⟨-, hstate⟩ := User.change_state hraise
      obtain ⟨-, hsavedState⟩ := s.save_object inv u'
      split at hanswer
      case isFalse => cases hanswer
      rename_i hreturns
      obtain rfl := Reply.user.inj (Except.ok.inj hanswer)
      have hlen := hrange id
      refine ⟨?_, _, rfl, (save_saved hby' ?_ (by omega) hreturns).1.mutate⟩
      · rw [User.toDto_state, hsavedState, hstate, UserState.apply_apply]
      · rw [hby.stream] at hne
        rw [← List.append_assoc]
        exact List.append_ne_nil_of_left_ne_nil hne _

/-- A new user is built from one event, of which nothing is stored. -/
theorem User.create_built (id : Id) (sk : Int32) (firstName lastName : Option String)
    (age : Int32) :
    ∃ e u, User.create id sk firstName lastName age = .returned u ∧ u.id = id ∧
      u.state = ⟨firstName, lastName, age⟩ ∧ ∀ store : Store Id UserEvent,
        store.aggregate id = [] → CachedBy userDomain store id u sk [] [] [e] := by
  have hnil : History id ([] ++ [] : List (AggregateEvent Id UserEvent)) := History.nil
  obtain ⟨raised, htypes, hhist, hraise⟩ := raiseAll_built userDomain sk hnil
    [((UserEvent.created firstName lastName age).type, UserEvent.created firstName lastName age)]
  rw [← new_eq_built, ← User.raise_eq_raiseAll, List.nil_append] at hraise
  obtain ⟨e, rfl⟩ := List.length_eq_one_iff.mp (by simpa using congrArg List.length htypes)
  obtain ⟨hid, hstate⟩ := User.raise_state hraise
  exact ⟨e, _, hraise, hid, hstate, fun store hstream => ⟨rfl, hstream, hhist⟩⟩

/-- The reply of `CreateUser`. -/
theorem Service.createUser_saved (hfresh : s.Fresh inv.newGuid)
    {firstName lastName : Option String} {age : Int64}
    (hanswer : (s.createUser inv firstName lastName age).1 = .ok (.user dto)) :
    dto.state = ⟨firstName, lastName, age.toInt32⟩ ∧ ∃ u, dto = u.toDto ∧
      Saved (s.createUser inv firstName lastName age).2 inv.newGuid u := by
  obtain ⟨e, u, hcreate, -, hstate, hby⟩ :=
    User.create_built inv.newGuid inv.shardKey firstName lastName age.toInt32
  rw [createUser_returned hcreate] at hanswer ⊢
  obtain ⟨-, hsavedState⟩ := s.save_object inv u
  split at hanswer
  case isFalse => cases hanswer
  rename_i hreturns
  obtain rfl := Reply.user.inj (Except.ok.inj hanswer)
  refine ⟨?_, _, rfl, (save_saved (hby s.process.store hfresh.2) (List.cons_ne_nil e _)
    (by simp [hfresh.2]) hreturns).1⟩
  rw [User.toDto_state, hsavedState, hstate]

/-- **What a handler's answer says**: the caller gets what it has asked for, and the user
    that it gets is saved. -/
theorem Service.handle_saved [ToString Id] (h : s.process.Sound userDomain) (hrange : s.InRange)
    (hstep : s.step inv = some s') (hanswer : (s.handle inv).1 = .ok (.user dto)) :
    inv.Asks dto ∧ ∃ u, dto = u.toDto ∧ Saved s' dto.id u := by
  unfold Service.step at hstep
  split at hstep
  case isFalse => cases hstep
  rename_i hfresh
  obtain rfl := Option.some.inj hstep
  have hid : ∀ {id : Id} {t : Service Id} {u : User Id}, Saved t id u → u.toDto.id = id := by
    rintro id t u ⟨-, ⟨sk, hu⟩, -, -⟩
    exact congrArg Aggregate.id hu
  have hevent : ∀ id e, inv.call.event = some (id, e) → dto.id = id ∧
      dto.state.apply e = dto.state ∧ ∃ u, dto = u.toDto ∧ Saved (s.handle inv).2 dto.id u := by
    intro id e hevent
    rw [handle_of_event hevent] at hanswer ⊢
    obtain ⟨hstate, u, rfl, hsaved⟩ := changeUser_saved h hrange hanswer
    rw [hid hsaved]
    exact ⟨rfl, hstate, u, rfl, hsaved⟩
  unfold Invocation.Asks
  cases hcall : inv.call with
  | get =>
      simp only [handle, hcall, get] at hanswer
      cases hanswer
  | throwException aggregateId =>
      simp only [handle, hcall] at hanswer
      cases hanswer
  | createUser firstName lastName age =>
      simp only [handle, hcall] at hanswer ⊢
      obtain ⟨hstate, u, rfl, hsaved⟩ := createUser_saved hfresh hanswer
      have heq : u.id = inv.newGuid := hid hsaved
      obtain ⟨hfirst, hlast, hage⟩ := UserState.mk.inj hstate
      refine ⟨?_, u, rfl, ?_⟩
      · calc u.toDto = ⟨u.toDto.id, u.toDto.firstName, u.toDto.lastName, u.toDto.age⟩ := rfl
          _ = ⟨inv.newGuid, firstName, lastName, age.toInt32⟩ := by
            rw [hfirst, hlast, hage, hid hsaved]
      · rw [hid hsaved]
        exact hsaved
  | changeUserFirstName aggregateId firstName =>
      obtain ⟨hdto, hstate, hsaved⟩ := hevent _ _ (by rw [hcall]; rfl)
      exact ⟨⟨hdto, (UserState.apply_eq_self _).1 _ |>.mp hstate⟩, hsaved⟩
  | changeUserLastName aggregateId lastName =>
      obtain ⟨hdto, hstate, hsaved⟩ := hevent _ _ (by rw [hcall]; rfl)
      exact ⟨⟨hdto, (UserState.apply_eq_self _).2.1 _ |>.mp hstate⟩, hsaved⟩
  | changeUserAge aggregateId age =>
      obtain ⟨hdto, hstate, hsaved⟩ := hevent _ _ (by rw [hcall]; rfl)
      exact ⟨⟨hdto, (UserState.apply_eq_self _).2.2 _ |>.mp hstate⟩, hsaved⟩

end Acknowledged

-- ============================================================================
-- Runs
-- ============================================================================

section Runs

variable [DecidableEq Id] [ToString Id] {s₀ s s' s'' : Service Id} {inv : Invocation Id}
  {invs invs' : List (Invocation Id)} {dto : UserDto Id} {store : Store Id UserEvent}

omit [DecidableEq Id] [ToString Id] in
theorem Service.InRange.request (h : s.InRange) {r : Request Id UserEvent}
    (hr : s.request inv = some r) : r.InRange s.process ∧ r.Begins := by
  have hevents : r.events.length ≤ 1 ∧ r.Begins := by
    unfold Service.request at hr
    split at hr
    · obtain rfl := Option.some.inj hr
      exact ⟨le_rfl, List.cons_ne_nil _ _⟩
    · obtain ⟨⟨id, e⟩, -, rfl⟩ := Option.map_eq_some_iff.mp hr
      refine ⟨?_, trivial⟩
      show (((s.memory.find id).map fun u => u.events e).getD []).length ≤ 1
      cases s.memory.find id with
      | none => exact Nat.zero_le _
      | some u =>
          simp only [Option.map_some, Option.getD_some, User.events]
          split
          · exact Nat.zero_le _
          · exact le_rfl
  refine ⟨fun id => ?_, hevents.2⟩
  have hlen := h id
  show (s.store.aggregate id).length + _ < _
  omega

/-- Calls keep a service sound and only add to its streams, whatever fails in them. -/
theorem Service.step_sound (h : s.process.Sound userDomain) (hrange : s.InRange)
    (hstep : s.step inv = some s') :
    s'.process.Sound userDomain ∧ Extends s.store s'.store := by
  rcases step_process hstep with ⟨-, rfl⟩ | ⟨r, hr, hprocess⟩
  · exact ⟨h, Extends.refl _⟩
  · obtain ⟨hinrange, hbegins⟩ := hrange.request hr
    exact ⟨h.step hinrange hbegins hprocess, Process.step_extends hprocess⟩

theorem Service.run_sound (h : s.process.Sound userDomain)
    (hrange : Transition.Along Service.step (fun s _ => s.InRange) s invs)
    (hrun : Transition.run Service.step s invs = some s') :
    s'.process.Sound userDomain ∧ Extends s.store s'.store :=
  Transition.run_invariant_along
    (I := fun t => Process.Sound t.process userDomain ∧ Extends s.store t.store)
    (fun _ _ _ h hrange hstep => by
      obtain ⟨hsound, hext⟩ := step_sound h.1 hrange hstep
      exact ⟨hsound, h.2.trans hext⟩)
    ⟨h, Extends.refl _⟩ hrange hrun

end Runs

section Witness

def noUserService : Service Nat := ⟨Store.empty, fun _ => none, Dictionary.empty⟩

/-- A user is created, and a change of its age fails at the first call of its save. -/
def failedChange : List (Invocation Nat) :=
  [⟨.createUser (some "A") none 30, 7, 41, fun _ => false, false⟩,
    ⟨.changeUserAge 7 31, 8, 0, fun c => c = .category, false⟩]

def afterFailedChange : Service Nat :=
  (Transition.run Service.step noUserService failedChange).getD noUserService

def changeLastName : Invocation Nat :=
  ⟨.changeUserLastName 7 (some "B"), 8, 0, fun _ => false, false⟩

theorem process_noUserService :
    noUserService.process = Process.initialized userDomain Store.empty := by
  simp [noUserService, Service.process, Process.initialized, Store.empty, Dictionary.empty]

end Witness

end Milde.UserManagement
