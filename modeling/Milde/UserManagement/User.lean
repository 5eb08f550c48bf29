/-
  Milde.UserManagement.User

  The sample aggregate (samples/Sample.UserManagement.Domain/Aggregates/User.cs) as a
  domain part, and its commands.

  Every command raises at most one event, built from the object itself, so a command
  on an idle object is nothing or one `raise` step of the processes
  (`command_run`).
-/
import Milde.EventStore.Processes

namespace Milde.UserManagement

open Milde.EventSourcing Milde.EventStore

variable {Id : Type}

/-- The data of the four event classes; a string may be null. -/
inductive UserEvent where
  | created (firstName lastName : Option String) (age : Int32)
  | firstNameChanged (firstName : Option String)
  | lastNameChanged (lastName : Option String)
  | ageChanged (age : Int32)
deriving DecidableEq, Repr

/-- The event class of each kind of data. -/
def UserEvent.type : UserEvent → ClrType
  | created _ _ _ => contract "UserCreatedEvent"
  | firstNameChanged _ => contract "UserFirstNameChanged"
  | lastNameChanged _ => contract "UserLastNameChanged"
  | ageChanged _ => contract "UserAgeChanged"
where
  contract (name : String) : ClrType :=
    ⟨"Sample.UserManagement.Contract", "Sample.UserManagement.Contract.Events", name⟩

structure UserState where
  firstName : Option String
  lastName : Option String
  age : Int32
deriving DecidableEq, Repr

/-- The four `Apply` methods, chosen by the runtime type of the event. -/
def UserState.apply (s : UserState) : UserEvent → UserState
  | .created firstName lastName age => ⟨firstName, lastName, age⟩
  | .firstNameChanged firstName => { s with firstName }
  | .lastNameChanged lastName => { s with lastName }
  | .ageChanged age => { s with age }

def userDomain : TotalDomain Id UserState UserEvent where
  init := ⟨none, none, 0⟩
  apply s e := s.apply e.payload

abbrev User (Id : Type) := Aggregate Id UserState UserEvent

/-- `this.ApplyEvent(new E(this.Id, this.Version + 1, this.ShardKey, …))`. -/
def User.raise [DecidableEq Id] (u : User Id) (e : UserEvent) : Outcome (User Id) :=
  u.applyEvent userDomain.domain (u.nextEvent e.type e)

/-- `User.Create`, given the fresh id and the random shard key. -/
def User.create [DecidableEq Id] (id : Id) (shardKey : Int32) (firstName lastName : Option String)
    (age : Int32) : Outcome (User Id) :=
  User.raise (Aggregate.new userDomain.domain id shardKey) (.created firstName lastName age)

/-- The shape of the three `Change…` commands: nothing unless the value differs. -/
def User.change [DecidableEq Id] (u : User Id) (same : Bool) (e : UserEvent) :
    Outcome (User Id) :=
  if same then .returned u else u.raise e

def User.changeFirstName [DecidableEq Id] (u : User Id) (firstName : Option String) :
    Outcome (User Id) :=
  u.change (u.state.firstName = firstName) (.firstNameChanged firstName)

def User.changeLastName [DecidableEq Id] (u : User Id) (lastName : Option String) :
    Outcome (User Id) :=
  u.change (u.state.lastName = lastName) (.lastNameChanged lastName)

def User.changeAge [DecidableEq Id] (u : User Id) (age : Int32) : Outcome (User Id) :=
  u.change (u.state.age = age) (.ageChanged age)

/-- A command on an idle object is a run of at most one `raise` step. -/
theorem command_run [DecidableEq Id] {T : String} {w : World Id UserState UserEvent} {o : Nat}
    {u u' : User Id} {views : List (View UserState)} {same : Bool} {e : UserEvent}
    (ho : w.objects[o]? = some ⟨u, none, views⟩) (h : u.change same e = .returned u') :
    ∃ ls w' views', Transition.run (step userDomain.domain T) w ls = some w' ∧
      w'.store = w.store ∧ w'.objects = w.objects.set o ⟨u', none, views'⟩ := by
  unfold User.change at h
  split at h
  · cases h
    exact ⟨[], w, views, rfl, rfl, (objects_set_self ho).symm⟩
  · refine ⟨[.raise o e.type e], w.setObject o ⟨u', none, views ++ [u.view]⟩,
      views ++ [u.view], Transition.run_single ?_, rfl, rfl⟩
    unfold User.raise at h
    simp only [step, ho, h]

end Milde.UserManagement
