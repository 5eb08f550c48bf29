/-
  Milde.Remoting.ServiceProxy

  The client's side of a call (Remoting/Client/ServiceProxy.cs): the request that `Invoke`
  builds, and which method the handler makes of it.

  The request carries the method's simple name and the arguments as texts.  The proxy lets
  every method through that returns a `Task<T>`, the inherited and the overloaded ones
  included, while the handler looks the name up among the interface's own methods.
-/
import Milde.Remoting.MessageHandler

namespace Milde.Remoting

open Milde.EventSourcing (ClrType)

variable {Ty V : Type}

/-- `GetRoutingKey`. -/
def getRoutingKey (contract : ServiceInterface Ty) (methodName : String) : String :=
  let serviceName := contract.type.name
  s!"{serviceName}.{methodName}"

/-- `Invoke` up to `Execute`: the request and its routing key. -/
def proxyRequest (runtime : Runtime Ty V) (contract : ServiceInterface Ty) (m : MethodInfo Ty)
    (args : List (Option V)) : Except Exception (RemoteRequest × String) :=
  if ¬ m.returnType.isTask then
    .error (.invalidOperation "ServiceProxy supports only asynchronous methods.")
  else if ¬ m.returnType.isGenericType then
    .error (.invalidOperation "ServiceProxy doesn't support VOID methods.")
  else
    .ok (RemoteRequest.create m.name (args.map runtime.serializeObject),
      getRoutingKey contract m.name)

/-- The headers that `Execute` fills in. -/
def RemoteRequest.setHeaders (request : RemoteRequest) (correlationId routingKey : String) :
    RemoteRequest :=
  { request with
    headers := request.headers.map fun headers =>
      { headers with
        correlationId := some correlationId
        routingKey := some routingKey
        replyTo := some "" } }

/-- The handler can tell the method by its name: it is the interface's own, it is the only
    one of its name there, and it is not generic. -/
def ServiceInterface.Resolves (contract : ServiceInterface Ty) (m : MethodInfo Ty) : Prop :=
  m ∈ contract.declared ∧ (∀ m' ∈ contract.declared, m'.name = m.name → m' = m) ∧
    m.genericParameters = 0

section Proxy

variable {h : MessageHandler Ty V} {m : MethodInfo Ty} {args : List (Option V)}
  {request : RemoteRequest} {key : String}

/-- An inherited method never resolves. -/
theorem not_resolves_of_inherited {contract : ServiceInterface Ty}
    (hm : m ∈ contract.inherited) : ¬ contract.Resolves m :=
  fun hresolves => contract.inheritedElsewhere m hm (contract.declaredHere m hresolves.1)

/-- Of two overloads neither resolves. -/
theorem not_resolves_of_overload {contract : ServiceInterface Ty} {m' : MethodInfo Ty}
    (hm' : m' ∈ contract.declared) (hname : m'.name = m.name) (hne : m' ≠ m) :
    ¬ contract.Resolves m :=
  fun hresolves => hne (hresolves.2.1 m' hm' hname)

/-- In an interface without base interfaces, overloads and generic methods every method
    resolves. -/
theorem resolves_of_flat {contract : ServiceInterface Ty} (hflat : contract.inherited = [])
    (hnames : ∀ m ∈ contract.declared, ∀ m' ∈ contract.declared, m'.name = m.name → m' = m)
    (hclosed : ∀ m ∈ contract.declared, m.genericParameters = 0) :
    ∀ m ∈ contract.methods, contract.Resolves m := by
  intro m hm
  rw [ServiceInterface.methods, hflat, List.append_nil] at hm
  exact ⟨hm, hnames m hm, hclosed m hm⟩

/-- What the proxy lets through, and the request it makes of it. -/
theorem proxyRequest_eq_ok {runtime : Runtime Ty V} {contract : ServiceInterface Ty} :
    proxyRequest runtime contract m args = .ok (request, key) ↔
      m.returnType.isTask = true ∧ m.returnType.isGenericType = true ∧
        request = RemoteRequest.create m.name (args.map runtime.serializeObject) ∧
        key = getRoutingKey contract m.name := by
  unfold proxyRequest
  refine ⟨?_, ?_⟩
  · intro hreq
    split at hreq
    · cases hreq
    · rename_i htask
      split at hreq
      · cases hreq
      · rename_i hgeneric
        cases hreq
        exact ⟨Decidable.of_not_not htask, Decidable.of_not_not hgeneric, rfl, rfl⟩
  · rintro ⟨htask, hgeneric, rfl, rfl⟩
    simp [htask, hgeneric]

/-- Arguments that survive JSON at their parameters' types reach the method as they were. -/
theorem typedParameters_serialized (methodName : String) {ps : List (ParameterInfo Ty)}
    (hlength : ps.length = args.length)
    (hround : ∀ p arg, (p, arg) ∈ ps.zip args →
      h.runtime.deserializeObject (h.runtime.serializeObject arg) p.parameterType = .ok arg) :
    h.typedParameters methodName ps ((args.map h.runtime.serializeObject).map some) =
      .ok args := by
  induction ps generalizing args with
  | nil =>
      cases args with
      | nil => rfl
      | cons arg args => cases hlength
  | cons p ps ih =>
      cases args with
      | nil => cases hlength
      | cons arg args =>
          have hparse : h.parse p.parameterType (some (h.runtime.serializeObject arg)) = .ok arg :=
            hround p arg List.mem_cons_self
          have hrest := ih (Nat.succ.inj hlength)
            fun p' arg' hmem => hround p' arg' (List.mem_cons_of_mem _ hmem)
          simp only [List.map_cons, MessageHandler.typedParameters, hparse, hrest]
          rfl

/-- **Proxy and handler mean the same method iff its name resolves.** -/
theorem handler_invokes_iff
    (hproxy : proxyRequest h.runtime h.contract m args = .ok (request, key))
    (hlength : m.parameters.length = args.length)
    (hround : ∀ p arg, (p, arg) ∈ m.parameters.zip args →
      h.runtime.deserializeObject (h.runtime.serializeObject arg) p.parameterType = .ok arg)
    (correlationId : String) :
    (h.handleRequest (request.setHeaders correlationId key)).invoked = [(m, args)] ↔
      h.contract.Resolves m := by
  obtain ⟨htask, hgeneric, rfl, rfl⟩ := proxyRequest_eq_ok.mp hproxy
  have htyped := typedParameters_serialized (h := h) m.name hlength hround
  rw [handleRequest_invoked_iff, checkedCall_eq_ok, ServiceInterface.getMethod_eq_some,
    ServiceInterface.filter_eq_singleton]
  refine ⟨?_, ?_⟩
  · rintro ⟨⟨⟨-, hmem, honly⟩, -⟩, hclosed⟩
    exact ⟨hmem, honly, hclosed⟩
  · rintro ⟨hmem, honly, hclosed⟩
    exact ⟨⟨⟨rfl, hmem, honly⟩, htask, hgeneric, _, rfl, by simpa using hlength, htyped⟩, hclosed⟩

end Proxy

-- ============================================================================
-- The interface of the tests
-- ============================================================================

section TestInterface

/-- Booleans as the JSON library writes them, and read from these two texts only: what else
    the library takes for a boolean, as the text `123`, is an error here. -/
def booleanRuntime : Runtime String Bool where
  fullName _ := "System.Boolean"
  typeName type := type
  serializeObject value :=
    match value with
    | none => "null"
    | some true => "true"
    | some false => "false"
  deserializeObject text _ :=
    if text = "true" then .ok (some true)
    else if text = "false" then .ok (some false)
    else .error (.other "Newtonsoft.Json.JsonReaderException" "Unexpected character.")

def testInterfaceType : ClrType := ⟨"Remoting.Tests", "Milde.Remoting.Tests", "ITestInterface"⟩

/-- `Task<bool> AsyncBooleanMethod(bool input)`. -/
def asyncBooleanMethod : MethodInfo String where
  declaringType := testInterfaceType
  name := "AsyncBooleanMethod"
  genericParameters := 0
  parameters := [⟨"input", "System.Boolean"⟩]
  returnType := .taskOf "System.Boolean"

/-- `Task<int> NotImplementedMethod()`. -/
def notImplementedMethod : MethodInfo String where
  declaringType := testInterfaceType
  name := "NotImplementedMethod"
  genericParameters := 0
  parameters := []
  returnType := .taskOf "System.Int32"

/-- The methods of `ITestInterface`, in the order in which it declares them. -/
def testMethods : List (MethodInfo String) :=
  [asyncBooleanMethod,
    ⟨testInterfaceType, "AsyncVoidMethod", 0, [], .task⟩,
    ⟨testInterfaceType, "VoidMethod", 0, [], .other⟩,
    ⟨testInterfaceType, "SyncMethod", 0, [], .other⟩,
    ⟨testInterfaceType, "AsyncObjectMethod", 0, [], .taskOf "System.Object"⟩,
    ⟨testInterfaceType, "AsyncObjectMethodWithParameters", 0,
      [⟨"date", "System.DateTime"⟩, ⟨"flag", "System.Boolean"⟩, ⟨"class", "System.Object"⟩,
        ⟨"type", "System.Type"⟩], .taskOf "System.Object"⟩,
    notImplementedMethod]

theorem declaringType_testMethods : ∀ m ∈ testMethods, m.declaringType = testInterfaceType := by
  decide

def testInterface : ServiceInterface String where
  type := testInterfaceType
  declared := testMethods
  inherited := []
  declaredHere := declaringType_testMethods
  inheritedElsewhere := by simp
  distinct := by decide

/-- An interface that extends the one of the tests with nothing of its own. -/
def derivedInterface : ServiceInterface String where
  type := { testInterfaceType with name := "IDerivedInterface" }
  declared := []
  inherited := testMethods
  declaredHere := by simp
  inheritedElsewhere m hm := by
    rw [declaringType_testMethods m hm]
    decide
  distinct := List.nodup_nil

/-- A handler of `contract` whose implementation does as `implementation` says. -/
def booleanHandler (contract : ServiceInterface String)
    (implementation : MethodInfo String → List (Option Bool) → Invocation Bool) :
    MessageHandler String Bool where
  runtime := booleanRuntime
  contract
  implementation
  send _ := .ok ()

/-- The request for `AsyncBooleanMethod(true)`. -/
def booleanRequest : RemoteRequest :=
  ⟨some "AsyncBooleanMethod", some [some "true"], some {}⟩

theorem handler_invokes_asyncBooleanMethod :
    ((booleanHandler testInterface
        fun _ _ => .returned (some (.completed (some true)))).handleRequest
        (booleanRequest.setHeaders "c" "ITestInterface.AsyncBooleanMethod")).invoked =
      [(asyncBooleanMethod, [some true])] := by
  refine (handler_invokes_iff (h := booleanHandler testInterface _) rfl rfl ?_ "c").mpr
    ⟨by decide, by decide, rfl⟩
  intro p arg hmem
  obtain ⟨rfl, rfl⟩ : p = ⟨"input", "System.Boolean"⟩ ∧ arg = some true := by
    simpa [asyncBooleanMethod] using hmem
  rfl

/-- The same call through a derived interface never reaches the implementation. -/
theorem handler_misses_inherited :
    asyncBooleanMethod ∈ derivedInterface.methods ∧
    proxyRequest booleanRuntime derivedInterface asyncBooleanMethod [some true] =
      .ok (booleanRequest, "IDerivedInterface.AsyncBooleanMethod") ∧
    ((booleanHandler derivedInterface
        fun _ _ => .returned (some (.completed (some true)))).handleRequest
        (booleanRequest.setHeaders "c" "IDerivedInterface.AsyncBooleanMethod")).invoked = [] := by
  exact ⟨by decide, rfl, rfl⟩

end TestInterface

end Milde.Remoting
