/-
  Milde.UserManagement.RemoteDirectory

  The sample from end to end: clients with proxies of `IUserManagementService`, RabbitMQ,
  the message handler, the service, its repository and its store.

  The clients share one directory of users.  Their calls are served one after the other,
  each by the directory that the calls before it have made, and each caller gets the task
  that stands for the answer there (`remote_directory`).  The environment decides the fresh
  id and the shard key of a call, and that nothing inside `Save` throws.
-/
import Milde.Remoting.Transparency
import Milde.UserManagement.Directory

namespace Milde.UserManagement

open Milde.EventSourcing Milde.EventStore Milde.AggregateCache SequentialLog
open Milde.Remoting (MethodInfo ParameterInfo ServiceInterface Runtime Exception Implementation
  Serving ServingLabel Entry callerTask readAnswer received)

variable {Id : Type}

-- ============================================================================
-- The contract
-- ============================================================================

/-- The types in the methods of `IUserManagementService`. -/
inductive ServiceType where
  | guid
  | string
  | int32
  | int64
  | userDto
  | userDtos
deriving DecidableEq, Repr

/-- Their values; null is one of `string` and of the types of results. -/
inductive ServiceValue (Id : Type) where
  | guid (id : Id)
  | string (text : String)
  | int32 (n : Int32)
  | int64 (n : Int64)
  | user (dto : UserDto Id)
  | users (dtos : List (UserDto Id))

/-- What can be read at a type. -/
def ServiceType.Reads : ServiceType → Option (ServiceValue Id) → Prop
  | .guid, v => ∃ id, v = some (.guid id)
  | .string, v => v = none ∨ ∃ text, v = some (.string text)
  | .int32, v => ∃ n, v = some (.int32 n)
  | .int64, v => ∃ n, v = some (.int64 n)
  | .userDto, v => v = none ∨ ∃ dto, v = some (.user dto)
  | .userDtos, v => v = none ∨ ∃ dtos, v = some (.users dtos)

def contractType : ClrType :=
  ⟨"/app/Sample.UserManagement.Contract.dll", "Sample.UserManagement.Contract",
    "IUserManagementService"⟩

/-- A method of the interface: `Task<result> name(parameters)`. -/
def serviceMethod (name : String) (parameters : List (ParameterInfo ServiceType))
    (result : ServiceType) : MethodInfo ServiceType where
  declaringType := contractType
  name
  genericParameters := 0
  parameters
  returnType := .taskOf result

namespace IUserManagementService

def get : MethodInfo ServiceType := serviceMethod "Get" [] .userDtos

def createUser : MethodInfo ServiceType :=
  serviceMethod "CreateUser"
    [⟨"firstName", .string⟩, ⟨"lastName", .string⟩, ⟨"age", .int64⟩] .userDto

def changeUserFirstName : MethodInfo ServiceType :=
  serviceMethod "ChangeUserFirstName" [⟨"aggregateId", .guid⟩, ⟨"firstName", .string⟩] .userDto

def changeUserLastName : MethodInfo ServiceType :=
  serviceMethod "ChangeUserLastName" [⟨"aggregateId", .guid⟩, ⟨"lastName", .string⟩] .userDto

def changeUserAge : MethodInfo ServiceType :=
  serviceMethod "ChangeUserAge" [⟨"aggregateId", .guid⟩, ⟨"age", .int32⟩] .userDto

def throwException : MethodInfo ServiceType :=
  serviceMethod "ThrowException" [⟨"aggregateId", .guid⟩] .userDto

def contract : ServiceInterface ServiceType where
  type := contractType
  declared := [get, createUser, changeUserFirstName, changeUserLastName, changeUserAge,
    throwException]
  inherited := []
  declaredHere := by decide
  inheritedElsewhere := by decide
  distinct := by decide

end IUserManagementService

/-- The method that a call is of. -/
def Call.method : Call Id → MethodInfo ServiceType
  | .get => IUserManagementService.get
  | .createUser _ _ _ => IUserManagementService.createUser
  | .changeUserFirstName _ _ => IUserManagementService.changeUserFirstName
  | .changeUserLastName _ _ => IUserManagementService.changeUserLastName
  | .changeUserAge _ _ => IUserManagementService.changeUserAge
  | .throwException _ => IUserManagementService.throwException

def Call.args : Call Id → List (Option (ServiceValue Id))
  | .get => []
  | .createUser firstName lastName age =>
      [firstName.map .string, lastName.map .string, some (.int64 age)]
  | .changeUserFirstName aggregateId firstName =>
      [some (.guid aggregateId), firstName.map .string]
  | .changeUserLastName aggregateId lastName => [some (.guid aggregateId), lastName.map .string]
  | .changeUserAge aggregateId age => [some (.guid aggregateId), some (.int32 age)]
  | .throwException aggregateId => [some (.guid aggregateId)]

/-- The text of an argument of type `string`. -/
def ServiceValue.text : Option (ServiceValue Id) → Option String
  | some (.string text) => some text
  | _ => none

/-- The call that an invocation of a method is. -/
def callOf (m : MethodInfo ServiceType) (args : List (Option (ServiceValue Id))) :
    Option (Call Id) :=
  match m.name, args with
  | "Get", [] => some .get
  | "CreateUser", [firstName, lastName, some (.int64 age)] =>
      some (.createUser (ServiceValue.text firstName) (ServiceValue.text lastName) age)
  | "ChangeUserFirstName", [some (.guid aggregateId), firstName] =>
      some (.changeUserFirstName aggregateId (ServiceValue.text firstName))
  | "ChangeUserLastName", [some (.guid aggregateId), lastName] =>
      some (.changeUserLastName aggregateId (ServiceValue.text lastName))
  | "ChangeUserAge", [some (.guid aggregateId), some (.int32 age)] =>
      some (.changeUserAge aggregateId age)
  | "ThrowException", [some (.guid aggregateId)] => some (.throwException aggregateId)
  | _, _ => none

/-- `JsonConvert` for the types of the contract: what is read at a type is of the type. -/
structure ServiceRuntime (Id : Type) extends Runtime ServiceType (ServiceValue Id) where
  reads : ∀ text type v, deserializeObject text type = .ok v → type.Reads v

/-- The service as RabbitMQ knows it. -/
def ServiceRuntime.service (runtime : ServiceRuntime Id) :
    Remoting.Service ServiceType (ServiceValue Id) where
  runtime := runtime.toRuntime
  contract := IUserManagementService.contract
  dotless := by decide
  dotlessMethods := by decide

-- ============================================================================
-- The implementation
-- ============================================================================

/-- The exceptions of the handlers; what a call inside `Save` throws is of its own. -/
def Thrown.toException (ofSave : Exception) : Thrown → Exception
  | .exception message => .other "System.Exception" message
  | .notImplementedException =>
      .other "System.NotImplementedException" "The method or operation is not implemented."
  | .invalidOperationException =>
      .invalidOperation "Operation is not valid due to the current state of the object."
  | .ofSave => ofSave

/-- What an answer is for the caller. -/
def Answer.outcome (ofSave : Exception) : Answer Id → Except Exception (ServiceValue Id)
  | .ok (.users dtos) => .ok (.users dtos)
  | .ok (.user dto) => .ok (.user dto)
  | .error e => .error (e.toException ofSave)

/-- The task of an async method. -/
def asyncTask : Except Exception (ServiceValue Id) → Remoting.Task (ServiceValue Id)
  | .ok v => .completed (some v)
  | .error e => .faulted e []

/-- What the environment decides of a call. -/
structure Choice (Id : Type) where
  newGuid : Id
  shardKey : Int32
  fails : SaveCall → Bool
  drop : Bool

def Choice.invocation (choice : Choice Id) (call : Call Id) : Invocation Id :=
  ⟨call, choice.newGuid, choice.shardKey, choice.fails, choice.drop⟩

/-- The calls, each with the choice for its place. -/
def invocations (choices : Nat → Choice Id) (calls : List (Call Id)) : List (Invocation Id) :=
  calls.zipIdx.map fun (call, n) => (choices n).invocation call

variable [DecidableEq Id] [ToString Id]

/-- One call of the service after `n` others. -/
def serveCall (choices : Nat → Choice Id) (state : Service Id × Nat) (call : Call Id) :
    (Service Id × Nat) × Answer Id :=
  let (answer, s) := state.1.handle ((choices state.2).invocation call)
  ((s, state.2 + 1), answer)

/-- `UserManagementService` as the object behind the message handler. -/
def UserManagementService (choices : Nat → Choice Id) (ofSave : Exception) (s₀ : Service Id) :
    Implementation ServiceType (ServiceValue Id) (Service Id × Nat) where
  initial := (s₀, 0)
  call state m args :=
    match callOf m args with
    | some call =>
        let (state, answer) := serveCall choices state call
        (.returned (some (asyncTask (answer.outcome ofSave))), state)
    -- no other arguments are read at the types of the parameters
    | none => (.threw (.argument "Object cannot be converted to the type of the parameter."), state)

/-- The fresh id is not in use, versions stay in range, and nothing inside `Save` throws. -/
def Service.Serves (choices : Nat → Choice Id) (state : Service Id × Nat) : Prop :=
  state.1.Fresh (choices state.2).newGuid ∧ state.1.InRange ∧
    ∀ c, (choices state.2).fails c = false

-- ============================================================================
-- Calls of the interface
-- ============================================================================

section Calls

omit [DecidableEq Id] [ToString Id]

/-- A call is told by its method and its arguments. -/
theorem callOf_call (call : Call Id) : callOf call.method call.args = some call := by
  have htext : ∀ text : Option String,
      ServiceValue.text (text.map (ServiceValue.string : String → ServiceValue Id)) = text := by
    intro text
    cases text <;> rfl
  cases call with
  | createUser firstName lastName age =>
      show some (Call.createUser (ServiceValue.text _) (ServiceValue.text _) age) = _
      rw [htext, htext]
  | changeUserFirstName id firstName =>
      show some (Call.changeUserFirstName id (ServiceValue.text _)) = _
      rw [htext]
  | changeUserLastName id lastName =>
      show some (Call.changeUserLastName id (ServiceValue.text _)) = _
      rw [htext]
  | _ => rfl

theorem ServiceType.reads_string {v : Option (ServiceValue Id)} (h : ServiceType.string.Reads v) :
    ∃ text : Option String, v = text.map .string := by
  rcases h with rfl | ⟨text, rfl⟩
  · exact ⟨none, rfl⟩
  · exact ⟨some text, rfl⟩

theorem contract_resolves : ∀ m ∈ IUserManagementService.contract.methods,
    IUserManagementService.contract.Resolves m :=
  Remoting.resolves_of_flat rfl (by decide) (by decide)

/-- Every request of a proxy is a call. -/
theorem exists_call {runtime : ServiceRuntime Id} (e : Entry runtime.service) :
    ∃ call : Call Id, e.method = call.method ∧ e.args = call.args := by
  obtain ⟨request, m, args, hmethod, -, hcount, hsurvive⟩ := e
  have hreads : List.Forall₂ (fun p arg => p.parameterType.Reads arg) m.parameters args :=
    List.forall₂_iff_zip.mpr ⟨hcount, fun hmem => runtime.reads _ _ _ (hsurvive _ _ hmem)⟩
  have hmethod : m ∈ IUserManagementService.contract.declared := hmethod
  simp only [IUserManagementService.contract, List.mem_cons, List.not_mem_nil, or_false] at hmethod
  rcases hmethod with rfl | rfl | rfl | rfl | rfl | rfl
  · obtain rfl := List.forall₂_nil_left_iff.mp hreads
    exact ⟨.get, rfl, rfl⟩
  · simp only [IUserManagementService.createUser, serviceMethod, List.forall₂_cons_left_iff,
      List.forall₂_nil_left_iff] at hreads
    obtain ⟨_, _, hfirst, ⟨_, _, hlast, ⟨_, _, ⟨age, rfl⟩, rfl, rfl⟩, rfl⟩, rfl⟩ := hreads
    obtain ⟨firstName, rfl⟩ := ServiceType.reads_string hfirst
    obtain ⟨lastName, rfl⟩ := ServiceType.reads_string hlast
    exact ⟨.createUser firstName lastName age, rfl, rfl⟩
  · simp only [IUserManagementService.changeUserFirstName, serviceMethod,
      List.forall₂_cons_left_iff, List.forall₂_nil_left_iff] at hreads
    obtain ⟨_, _, ⟨id, rfl⟩, ⟨_, _, hfirst, rfl, rfl⟩, rfl⟩ := hreads
    obtain ⟨firstName, rfl⟩ := ServiceType.reads_string hfirst
    exact ⟨.changeUserFirstName id firstName, rfl, rfl⟩
  · simp only [IUserManagementService.changeUserLastName, serviceMethod,
      List.forall₂_cons_left_iff, List.forall₂_nil_left_iff] at hreads
    obtain ⟨_, _, ⟨id, rfl⟩, ⟨_, _, hlast, rfl, rfl⟩, rfl⟩ := hreads
    obtain ⟨lastName, rfl⟩ := ServiceType.reads_string hlast
    exact ⟨.changeUserLastName id lastName, rfl, rfl⟩
  · simp only [IUserManagementService.changeUserAge, serviceMethod, List.forall₂_cons_left_iff,
      List.forall₂_nil_left_iff] at hreads
    obtain ⟨_, _, ⟨id, rfl⟩, ⟨_, _, ⟨age, rfl⟩, rfl, rfl⟩, rfl⟩ := hreads
    exact ⟨.changeUserAge id age, rfl, rfl⟩
  · simp only [IUserManagementService.throwException, serviceMethod, List.forall₂_cons_left_iff,
      List.forall₂_nil_left_iff] at hreads
    obtain ⟨_, _, ⟨id, rfl⟩, rfl, rfl⟩ := hreads
    exact ⟨.throwException id, rfl, rfl⟩

/-- The call that a request is. -/
def entryCall {runtime : ServiceRuntime Id} (e : Entry runtime.service) : Call Id :=
  (callOf e.method e.args).getD .get

theorem entryCall_spec {runtime : ServiceRuntime Id} (e : Entry runtime.service) :
    e.method = (entryCall e).method ∧ e.args = (entryCall e).args := by
  obtain ⟨call, hmethod, hargs⟩ := exists_call e
  have hcall : entryCall e = call := by
    rw [entryCall, hmethod, hargs, callOf_call, Option.getD_some]
  rw [hcall]
  exact ⟨hmethod, hargs⟩

end Calls

-- ============================================================================
-- The calls in the order in which they are served
-- ============================================================================

section Serving

variable {choices : Nat → Choice Id} {ofSave : Exception} {s₀ : Service Id}
  {runtime : ServiceRuntime Id}

/-- The object behind the handler does what the service does. -/
theorem direct_entry (state : Service Id × Nat) (e : Entry runtime.service) :
    (UserManagementService choices ofSave s₀).direct state e =
      ((serveCall choices state (entryCall e)).1, .returned
        (some (asyncTask ((serveCall choices state (entryCall e)).2.outcome ofSave)))) := by
  obtain ⟨hmethod, hargs⟩ := entryCall_spec e
  have hcall : callOf e.method e.args = some (entryCall e) := by
    rw [hmethod, hargs, callOf_call]
  simp only [Implementation.direct, UserManagementService, hcall]

omit [DecidableEq Id] [ToString Id] in
theorem invocations_append (calls : List (Call Id)) (call : Call Id) :
    invocations choices (calls ++ [call]) =
      invocations choices calls ++ [(choices calls.length).invocation call] := by
  simp [invocations, List.zipIdx_append]

/-- One call: the answer and the new directory are those of the directory. -/
theorem Service.Clean.serves {state : Service Id × Nat} (h : state.1.Clean)
    (hserves : Service.Serves choices state) (call : Call Id) :
    (serveCall choices state call).1.1.Clean ∧
      state.1.directory.Answers ((choices state.2).invocation call)
        (serveCall choices state call).2 ∧
      (serveCall choices state call).1.1.directory =
        state.1.directory.next ((choices state.2).invocation call) := by
  obtain ⟨hfresh, hrange, hhealthy⟩ := hserves
  have hhealthy : ((choices state.2).invocation call).Healthy := hhealthy
  exact h.step hrange hhealthy (if_pos hfresh)

/-- **Calls one after the other.** The service stays clean, and its directory is the one that
    the calls have made. -/
theorem Service.Clean.after (h : s₀.Clean) {calls : List (Call Id)}
    (hserves : ServedIn (serveCall choices) (s₀, 0) (Service.Serves choices) calls) :
    (replay (serveCall choices) (s₀, 0) calls).1.Clean ∧
      (replay (serveCall choices) (s₀, 0) calls).1.directory =
        (invocations choices calls).foldl Directory.next s₀.directory ∧
      (replay (serveCall choices) (s₀, 0) calls).2 = calls.length := by
  induction calls using List.reverseRecOn with
  | nil => exact ⟨h, rfl, rfl⟩
  | append_singleton calls call ih =>
      obtain ⟨hbefore, hserves⟩ := servedIn_append_singleton.mp hserves
      obtain ⟨hclean, hdirectory, hcount⟩ := ih hbefore
      rw [replay_append_singleton, invocations_append, List.foldl_append, ← hdirectory, ← hcount,
        List.length_append]
      obtain ⟨hclean', -, hdirectory'⟩ := hclean.serves hserves call
      exact ⟨hclean', hdirectory', congrArg (· + 1) hcount⟩

omit [DecidableEq Id] [ToString Id] in
/-- The requests of the log are the calls that they stand for. -/
theorem asks_entryCall (entries : List (Entry runtime.service)) :
    List.Forall₂ (fun call q => runtime.service.Asks q (Call.method call) (Call.args call))
      (entries.map entryCall) (entries.map Entry.request) := by
  rw [List.forall₂_map_left_iff, List.forall₂_map_right_iff, List.forall₂_same]
  intro e _
  obtain ⟨hmethod, hargs⟩ := entryCall_spec e
  rw [← hmethod, ← hargs]
  exact e.asks

theorem replay_entryCall (entries : List (Entry runtime.service)) :
    replay (serveCall choices) (s₀, 0) (entries.map entryCall) =
      replay (UserManagementService choices ofSave s₀).direct (s₀, 0) entries :=
  replay_map (fun state e => by rw [direct_entry]) entries

theorem servedIn_entryCall {C : Service Id × Nat → Prop} (entries : List (Entry runtime.service)) :
    ServedIn (serveCall choices) (s₀, 0) C (entries.map entryCall) ↔
      ServedIn (UserManagementService choices ofSave s₀).direct (s₀, 0) C entries :=
  servedIn_map fun state e => by rw [direct_entry]

omit [DecidableEq Id] [ToString Id] in
/-- What goes back for the task of an async method. -/
theorem reply_asyncTask (o : Except Exception (ServiceValue Id)) :
    (Remoting.Invocation.returned (some (asyncTask o))).reply = some o := by
  cases o <;> rfl

/-- What the object did at the place of a request is the directory's answer to its call. -/
theorem Service.Clean.answered_entry (h : s₀.Clean) {entries : List (Entry runtime.service)}
    {e : Entry runtime.service} {invocation : Remoting.Invocation (ServiceValue Id)}
    (hserves : ServedIn (serveCall choices) (s₀, 0) (Service.Serves choices)
      (entries.map entryCall))
    (hanswered : Answered (UserManagementService choices ofSave s₀).direct (s₀, 0) entries e
      invocation) :
    ∃ before after answer, entries.map entryCall = before ++ entryCall e :: after ∧
      ((invocations choices before).foldl Directory.next s₀.directory).Answers
        ((choices before.length).invocation (entryCall e)) answer ∧
      invocation = .returned (some (asyncTask (answer.outcome ofSave))) := by
  obtain ⟨before, after, rfl, rfl⟩ := hanswered
  have hsplit : (before ++ e :: after).map entryCall =
      before.map entryCall ++ entryCall e :: after.map entryCall := by
    rw [List.map_append, List.map_cons]
  have hplace : Service.Serves choices
      (replay (serveCall choices) (s₀, 0) (before.map entryCall)) := hserves _ _ _ hsplit
  have hbefore : ServedIn (serveCall choices) (s₀, 0) (Service.Serves choices)
      (before.map entryCall) := by
    rw [hsplit] at hserves
    exact hserves.of_append
  obtain ⟨hclean, hdirectory, hcount⟩ := h.after hbefore
  obtain ⟨-, hanswers, -⟩ := hclean.serves hplace (entryCall e)
  rw [hdirectory, hcount] at hanswers
  refine ⟨_, _, _, hsplit, hanswers, ?_⟩
  rw [← replay_entryCall, direct_entry]

/-- **The clients share one directory of users.** The service starts over healthy streams,
    every argument survives JSON, and whenever a call is served its fresh id is fresh and
    nothing inside `Save` throws.  Then the requests served are calls of the service, the
    directory that the store replays to is the one after these calls, one after the other,
    and every call that has completed gives its caller the task for the directory's answer
    at its place, as JSON reads it back. -/
theorem remote_directory {store : Store Id UserEvent}
    (hinit : s₀.process = Process.initialized userDomain store)
    (hstreams : ∀ id, History id (store.aggregate id))
    {ls : List (ServingLabel (ServiceValue Id))} {w : Serving (ServiceValue Id) (Service Id × Nat)}
    (hargs : Transition.Along
      (Serving.step runtime.service (UserManagementService choices ofSave s₀))
      (fun _ l => runtime.service.ArgsSurvive l)
      (Serving.init runtime.service (UserManagementService choices ofSave s₀)) ls)
    (hserved : Transition.Along
      (Serving.step runtime.service (UserManagementService choices ofSave s₀))
      (fun w l => ∀ q, w.served l = some q → Service.Serves choices w.state)
      (Serving.init runtime.service (UserManagementService choices ofSave s₀)) ls)
    (hrun : Transition.run
      (Serving.step runtime.service (UserManagementService choices ofSave s₀))
      (Serving.init runtime.service (UserManagementService choices ofSave s₀)) ls = some w) :
    ∃ calls : List (Call Id),
      List.Forall₂ (fun call q => runtime.service.Asks q (Call.method call) (Call.args call))
        calls w.log ∧
      w.state.1.directory = (invocations choices calls).foldl Directory.next s₀.directory ∧
      ∀ (i : Nat) call, w.traffic.clients.calls[i]? = some call →
        ∃ c : Call Id, runtime.service.Asks call.request c.method c.args ∧
          ∀ completion, call.completion = some completion →
            ∃ before after answer r, calls = before ++ c :: after ∧
              ((invocations choices before).foldl Directory.next s₀.directory).Answers
                ((choices before.length).invocation c) answer ∧
              completion = .result r ∧
              ∀ read (cast : ServiceType → Option (ServiceValue Id) →
                  Except Exception (Option (ServiceValue Id))) t,
                received read cast r t =
                  (readAnswer read (answer.outcome ofSave)).map (callerTask cast t) := by
  obtain ⟨hinv, hproxied⟩ := Serving.proxied_run hargs hrun
  obtain ⟨entries, hentries, hstate⟩ := hproxied.entries hinv contract_resolves
  have hclean := Service.clean_initialized hinit hstreams
  have hcalls : ServedIn (serveCall choices) (s₀, 0) (Service.Serves choices)
      (entries.map entryCall) := by
    have hlog := Serving.inv_init.run_servedIn servedIn_nil hserved hrun
    rw [← hentries, servedIn_map fun state e => (e.serve contract_resolves state).1] at hlog
    exact (servedIn_entryCall entries).mpr hlog
  refine ⟨entries.map entryCall, hentries ▸ asks_entryCall entries, ?_, ?_⟩
  · have hreplay : w.state = replay (serveCall choices) (s₀, 0) (entries.map entryCall) := by
      rw [hstate, replay_entryCall]
      rfl
    rw [hreplay]
    exact (hclean.after hcalls).2.1
  · intro i call hcall
    obtain ⟨e, he, hdone⟩ := hproxied.completed hinv contract_resolves hentries hcall
    obtain ⟨hmethod, hsent⟩ := entryCall_spec e
    refine ⟨entryCall e, ?_, fun completion hcompletion => ?_⟩
    · rw [← he, ← hmethod, ← hsent]
      exact e.asks
    · obtain ⟨r, invocation, o, rfl, hanswered, hreply, hreceived⟩ :=
        hdone completion hcompletion
      obtain ⟨before, after, answer, hsplit, hanswer, rfl⟩ :=
        hclean.answered_entry hcalls hanswered
      rw [reply_asyncTask] at hreply
      obtain rfl := Option.some.inj hreply
      exact ⟨before, after, answer, r, hsplit, hanswer, rfl, hreceived⟩

end Serving

-- ============================================================================
-- A birthday
-- ============================================================================

section Birthday

/-- The types, texts and values of the arguments below, as the JSON library has them. -/
def birthdayTexts : List (ServiceType × String × Option (ServiceValue Nat)) :=
  [(.string, "\"A\"", some (.string "A")), (.string, "null", none),
    (.int64, "30", some (.int64 30)), (.guid, "\"7\"", some (.guid 7)),
    (.int32, "31", some (.int32 31))]

def birthdayRuntime : ServiceRuntime Nat where
  fullName
    | .users _ => "System.Collections.Generic.List"
    | _ => "Sample.UserManagement.Contract.UserDto"
  typeName
    | .guid => "System.Guid"
    | .string => "System.String"
    | .int32 => "System.Int32"
    | .int64 => "System.Int64"
    | .userDto => "Sample.UserManagement.Contract.UserDto"
    | .userDtos => "System.Collections.Generic.IList"
  serializeObject
    | some (.guid id) => s!"\"{id}\""
    | some (.string text) => s!"\"{text}\""
    | some (.int32 n) => toString n
    | some (.int64 n) => toString n
    | _ => "null"
  deserializeObject text type :=
    match birthdayTexts.find? fun row => row.1 = type ∧ row.2.1 = text with
    | some row => .ok row.2.2
    | none => .error (.other "Newtonsoft.Json.JsonReaderException" "Unexpected character.")
  reads := by
    intro text type v h
    have hrows : ∀ row ∈ birthdayTexts, row.1.Reads row.2.2 := by
      simp [birthdayTexts, ServiceType.Reads]
    split at h
    · rename_i row hrow
      obtain rfl := Except.ok.inj h
      have hkey := List.find?_some hrow
      simp only [decide_eq_true_eq] at hkey
      rw [← hkey.1]
      exact hrows row (List.mem_of_find?_eq_some hrow)
    · cases h

def birthdayChoices (n : Nat) : Choice Nat := ⟨7 + n, 41, fun _ => false, false⟩

/-- No user is stored yet. -/
abbrev birthdayService : Implementation ServiceType (ServiceValue Nat) (Service Nat × Nat) :=
  UserManagementService birthdayChoices .nullReference noUserService

/-- One client creates a user, and another one changes the age of this user. -/
def remoteBirthday : List (ServingLabel (ServiceValue Nat)) :=
  [.execute 0 "a" 1 [some (.string "A"), none, some (.int64 30)], .send 0, .deliverRequest 0,
    .handleRequest 0, .deliverResponse 0 0, .handleResponse 1, .handleResponse 1,
    .execute 1 "b" 4 [some (.guid 7), some (.int32 31)], .send 1, .deliverRequest 0,
    .handleRequest 2, .deliverResponse 1 0, .handleResponse 3, .handleResponse 3]

theorem argsSurvive_remoteBirthday :
    Transition.Along (Serving.step birthdayRuntime.service birthdayService)
      (fun _ l => birthdayRuntime.service.ArgsSurvive l)
      (Serving.init birthdayRuntime.service birthdayService) remoteBirthday := by
  have hcreate : birthdayRuntime.service.ArgsSurvive
      (.execute 0 "a" 1 [some (.string "A"), none, some (.int64 30)]) := by
    intro m hm
    obtain rfl : IUserManagementService.createUser = m := Option.some.inj hm
    refine ⟨rfl, fun p arg hmem => ?_⟩
    simp only [IUserManagementService.createUser, serviceMethod, List.zip_cons_cons,
      List.zip_nil_left, List.mem_cons, List.not_mem_nil, or_false, Prod.mk.injEq] at hmem
    obtain ⟨rfl, rfl⟩ | ⟨rfl, rfl⟩ | ⟨rfl, rfl⟩ := hmem
    · rfl
    · rfl
    · rfl
  have hchange : birthdayRuntime.service.ArgsSurvive
      (.execute 1 "b" 4 [some (.guid 7), some (.int32 31)]) := by
    intro m hm
    obtain rfl : IUserManagementService.changeUserAge = m := Option.some.inj hm
    refine ⟨rfl, fun p arg hmem => ?_⟩
    simp only [IUserManagementService.changeUserAge, serviceMethod, List.zip_cons_cons,
      List.zip_nil_left, List.mem_cons, List.not_mem_nil, or_false, Prod.mk.injEq] at hmem
    obtain ⟨rfl, rfl⟩ | ⟨rfl, rfl⟩ := hmem
    · rfl
    · rfl
  refine Transition.along_of_mem (fun l hl _ => ?_) _
  simp only [remoteBirthday, List.mem_cons, List.not_mem_nil, or_false] at hl
  obtain rfl | rfl | rfl | rfl | rfl | rfl | rfl | rfl | rfl | rfl | rfl | rfl | rfl | rfl := hl
  all_goals first | exact hcreate | exact hchange | trivial

theorem serves_remoteBirthday :
    Transition.Along (Serving.step birthdayRuntime.service birthdayService)
      (fun w l => ∀ q, w.served l = some q → Service.Serves birthdayChoices w.state)
      (Serving.init birthdayRuntime.service birthdayService) remoteBirthday := by
  iterate 3 refine (Transition.along_cons rfl).mpr ⟨(fun q hq => by cases hq), ?_⟩
  -- `CreateUser`
  refine (Transition.along_cons rfl).mpr
    ⟨fun _ _ => ⟨⟨rfl, rfl⟩, fun id => ?_, fun _ => rfl⟩, ?_⟩
  · show 0 + 1 < _
    decide
  iterate 6 refine (Transition.along_cons rfl).mpr ⟨(fun q hq => by cases hq), ?_⟩
  -- `ChangeUserAge`
  refine (Transition.along_cons rfl).mpr
    ⟨fun _ _ => ⟨⟨rfl, rfl⟩, fun id => ?_, fun _ => rfl⟩, ?_⟩
  · show (Function.update (fun _ => []) 7 _ id).length + 1 < _
    by_cases hid : id = 7
    · subst hid
      decide
    · rw [Function.update_of_ne hid]
      decide
  iterate 3 refine (Transition.along_cons rfl).mpr ⟨(fun q hq => by cases hq), ?_⟩
  trivial

/-- The second client gets the user of the first one. -/
theorem remote_directory_birthday : ∃ w,
    Transition.run (Serving.step birthdayRuntime.service birthdayService)
      (Serving.init birthdayRuntime.service birthdayService) remoteBirthday = some w ∧
    w.state.1.directory 7 = some (⟨some "A", none, 31⟩, 2) ∧
    ∃ (calls before after : List (Call Nat)) (c : Call Nat) (answer : Answer Nat),
      List.Forall₂ (fun call q => birthdayRuntime.service.Asks q (Call.method call) call.args)
        calls w.log ∧
      calls = before ++ c :: after ∧
      ((invocations birthdayChoices before).foldl Directory.next noUserService.directory).Answers
        ((birthdayChoices before.length).invocation c) answer ∧
      (readAnswer some (answer.outcome .nullReference)).map
          (callerTask (fun (_ : ServiceType) v => .ok v) .userDto) =
        some (.ok (.completed (some (.user ⟨7, some "A", none, 31⟩)))) := by
  have hrun : Transition.run (Serving.step birthdayRuntime.service birthdayService)
      (Serving.init birthdayRuntime.service birthdayService) remoteBirthday = some _ := rfl
  obtain ⟨calls, hasks, -, hcalls⟩ := remote_directory process_noUserService
    (fun _ => History.nil) argsSurvive_remoteBirthday serves_remoteBirthday hrun
  obtain ⟨c, -, hdone⟩ := hcalls 1 _ rfl
  obtain ⟨before, after, answer, r, hsplit, hanswers, hr, hreceived⟩ := hdone _ rfl
  cases hr
  exact ⟨_, hrun, rfl, calls, before, after, c, answer, hasks, hsplit, hanswers,
    (hreceived some (fun _ v => .ok v) .userDto).symm⟩

end Birthday

end Milde.UserManagement
