/-
  Milde.Remoting.MessageHandler

  The server's side of a call (Remoting/Service/MessageHandler.cs).

  `GetResponse` looks the method up by its name, checks it against the request, reads the
  arguments at the parameters' types and invokes the method; `HandleRequest` sends what
  comes of it.  `checkedCall` is `GetResponse` up to `Invoke`, which has no effect.  What
  the code takes from the runtime and from the JSON library is a parameter (`Runtime`).
-/
import Milde.Common.Lists
import Milde.EventSourcing.Aggregate
import Milde.Remoting.Messages

namespace Milde.Remoting

open Milde.EventSourcing (ClrType)

-- ============================================================================
-- Reflection
-- ============================================================================

/-- A return type: of the tasks the result type matters. -/
inductive ReturnType (Ty : Type) where
  | other
  | task
  | taskOf (result : Ty)
deriving DecidableEq, Repr

/-- `typeof(Task).IsAssignableFrom(returnType)`. -/
def ReturnType.isTask {Ty : Type} : ReturnType Ty → Bool
  | other => false
  | _ => true

/-- `IsGenericType` of a type that is a task. -/
def ReturnType.isGenericType {Ty : Type} : ReturnType Ty → Bool
  | taskOf _ => true
  | _ => false

structure ParameterInfo (Ty : Type) where
  name : String
  parameterType : Ty
deriving DecidableEq, Repr

structure MethodInfo (Ty : Type) where
  declaringType : ClrType
  name : String
  genericParameters : Nat
  parameters : List (ParameterInfo Ty)
  returnType : ReturnType Ty
deriving DecidableEq, Repr

/-- A service interface: its own methods and those of its base interfaces. -/
structure ServiceInterface (Ty : Type) where
  type : ClrType
  declared : List (MethodInfo Ty)
  inherited : List (MethodInfo Ty)
  declaredHere : ∀ m ∈ declared, m.declaringType = type
  inheritedElsewhere : ∀ m ∈ inherited, m.declaringType ≠ type
  distinct : declared.Nodup

/-- Every method that a caller of the interface can call. -/
def ServiceInterface.methods {Ty : Type} (i : ServiceInterface Ty) : List (MethodInfo Ty) :=
  i.declared ++ i.inherited

/-- `typeof(TInterface).GetMethod(name)`: looks at the interface's own methods only. -/
def ServiceInterface.getMethod {Ty : Type} (i : ServiceInterface Ty) :
    Option String → Except Exception (Option (MethodInfo Ty))
  | none => .error (.argumentNull "name")
  | some name =>
      match i.declared.filter fun m => m.name = name with
      | [] => .ok none
      | [m] => .ok (some m)
      | _ => .error .ambiguousMatch

/-- What the code takes from the runtime and from the JSON library: the name of a value's
    type, the name of a type, and `JsonConvert` with default settings. -/
structure Runtime (Ty V : Type) where
  fullName : V → String
  typeName : Ty → String
  serializeObject : Option V → String
  deserializeObject : String → Ty → Except Exception (Option V)

/-- What the implementation does when it is called: it throws, or returns its task, which
    may be null. -/
inductive Invocation (V : Type) where
  | threw (e : Exception)
  | returned (task : Option (Task V))

-- ============================================================================
-- MessageHandler
-- ============================================================================

structure MessageHandler (Ty V : Type) where
  runtime : Runtime Ty V
  contract : ServiceInterface Ty
  implementation : MethodInfo Ty → List (Option V) → Invocation V
  send : RemoteResponse V → Except Exception Unit

/-- What a call of `HandleRequest` has done: the invocations of the implementation, the
    messages sent, and how the call ended. -/
structure Handled (Ty V : Type) where
  invoked : List (MethodInfo Ty × List (Option V))
  sent : List (RemoteResponse V)
  outcome : Except Exception Bool

namespace MessageHandler

variable {Ty V : Type} (h : MessageHandler Ty V)

/-- `JsonConvert.DeserializeObject(args[cnt].ToString(), parameters[cnt].ParameterType)`. -/
def parse (type : Ty) : Option String → Except Exception (Option V)
  | none => .error .nullReference
  | some arg => h.runtime.deserializeObject arg type

/-- The loop that fills `typedParameters`. -/
def typedParameters (methodName : String) :
    List (ParameterInfo Ty) → List (Option String) → Except Exception (List (Option V))
  | p :: ps, arg :: args =>
      match h.parse p.parameterType arg with
      | .error _ =>
          let value := arg.getD ""
          let type := h.runtime.typeName p.parameterType
          .error (.argument
            s!"Unable to cast value {value} of argument {p.name} to type {type} in method {methodName}")
      | .ok v => (typedParameters methodName ps args).map (v :: ·)
  | _, _ => .ok []

/-- `GetResponse` up to the invocation: the method and its arguments. -/
def checkedCall (methodName : Option String) (args : Option (List (Option String))) :
    Except Exception (MethodInfo Ty × List (Option V)) :=
  match h.contract.getMethod methodName with
  | .error e => .error e
  | .ok none => .error (.missingMethod h.contract.type.name (methodName.getD ""))
  | .ok (some m) =>
      if ¬ m.returnType.isTask then
        .error (.invalidOperation "Message handler supports only asynchronous methods.")
      else if ¬ m.returnType.isGenericType then
        .error (.invalidOperation "Message handler doesn't support VOID methods.")
      else
        match args with
        | none => .error .nullReference
        | some args =>
            let expected := m.parameters.length
            let received := args.length
            if expected ≠ received then
              .error (.argument
                s!"Unexpected number of agruments in call to {m.name}. Exected {expected}, received {received}")
            else (h.typedParameters m.name m.parameters args).map fun typed => (m, typed)

/-- `method.Invoke(_instance, typedParameters)`: whether the implementation was called, and
    what the caller gets.  An open generic method cannot be invoked. -/
def invoke (m : MethodInfo Ty) (args : List (Option V)) :
    List (MethodInfo Ty × List (Option V)) × Except Exception (Option (Task V)) :=
  if m.genericParameters ≠ 0 then
    ([], .error (.invalidOperation
      "Late bound operations cannot be performed on types or methods for which ContainsGenericParameters is true."))
  else
    match h.implementation m args with
    | .threw e => ([(m, args)], .error (.targetInvocation (some e)))
    | .returned task => ([(m, args)], .ok task)

/-- `GetResponse`, with the invocations it has made. -/
def getResponse (methodName : Option String) (args : Option (List (Option String))) :
    List (MethodInfo Ty × List (Option V)) × Except Exception (Option V) :=
  match h.checkedCall methodName args with
  | .error e => ([], .error e)
  | .ok (m, typed) =>
      match h.invoke m typed with
      | (invoked, .error e) => (invoked, .error e)
      | (invoked, .ok none) => (invoked, .error .nullReference)
      | (invoked, .ok (some task)) => (invoked, task.getResult)

/-- `_sender.Send(msg)`, or the exception that comes before it: what was sent and how it
    ended. -/
def trySend : Except Exception (RemoteResponse V) →
    List (RemoteResponse V) × Except Exception Unit
  | .error e => ([], .error e)
  | .ok msg =>
      match h.send msg with
      | .error e => ([], .error e)
      | .ok () => ([msg], .ok ())

def sendResponse (response : Option V) (requestHeaders : Option MessageHeaders) :
    List (RemoteResponse V) × Except Exception Unit :=
  h.trySend ((RemoteResponse.ofResponse h.runtime.fullName response).bind
    fun msg => msg.withHeaders requestHeaders)

def sendErrorResponse (e : Exception) (requestHeaders : Option MessageHeaders) :
    List (RemoteResponse V) × Except Exception Unit :=
  h.trySend ((RemoteResponse.ofException e).withHeaders requestHeaders)

/-- The two catch clauses: the exception to answer with.  `First()` of an
    `AggregateException` without inner exceptions throws. -/
def sourceException : Exception → Except Exception Exception
  | .targetInvocation (some (.aggregate [])) =>
      .error (.invalidOperation "Sequence contains no elements")
  | .targetInvocation (some (.aggregate (e :: _))) => .ok e
  | e => .ok e

/-- A catch clause: answer with the exception and return true. -/
def catchException (e : Exception) (requestHeaders : Option MessageHeaders) :
    List (RemoteResponse V) × Except Exception Bool :=
  match sourceException e with
  | .error e => ([], .error e)
  | .ok source =>
      let (sent, ended) := h.sendErrorResponse source requestHeaders
      (sent, ended.map fun _ => true)

def handleRequest (request : RemoteRequest) : Handled Ty V :=
  match h.getResponse request.methodName request.args with
  | (invoked, .error e) =>
      let (sent, outcome) := h.catchException e request.headers
      { invoked, sent, outcome }
  | (invoked, .ok response) =>
      match h.sendResponse response request.headers with
      | (sent, .ok ()) => { invoked, sent, outcome := .ok true }
      | (sent, .error e) =>
          let (sentAfter, outcome) := h.catchException e request.headers
          { invoked, sent := sent ++ sentAfter, outcome }

end MessageHandler

-- ============================================================================
-- What the parts do
-- ============================================================================

section Parts

variable {Ty V : Type} {h : MessageHandler Ty V} {request : RemoteRequest}
  {headers : MessageHeaders} {m : MethodInfo Ty} {args : List (Option V)}

/-- A lookup that finds a method has found the only one of that name. -/
theorem ServiceInterface.getMethod_eq_some {i : ServiceInterface Ty} {name : Option String} :
    i.getMethod name = .ok (some m) ↔
      name = some m.name ∧ i.declared.filter (fun m' => m'.name = m.name) = [m] := by
  cases name with
  | none => simp [getMethod]
  | some name =>
      simp only [getMethod, Option.some.injEq]
      refine ⟨?_, ?_⟩
      · intro hget
        split at hget
        · cases hget
        · rename_i m' hfilter
          cases hget
          have hmem : m ∈ i.declared.filter fun m => m.name = name := by
            rw [hfilter]
            exact List.mem_singleton_self m
          have hname : m.name = name := by simpa using (List.mem_filter.mp hmem).2
          rw [hname]
          exact ⟨rfl, hfilter⟩
        · cases hget
      · rintro ⟨rfl, hfilter⟩
        rw [hfilter]

/-- The only method of a name, in terms of membership. -/
theorem ServiceInterface.filter_eq_singleton {i : ServiceInterface Ty} :
    i.declared.filter (fun m' => m'.name = m.name) = [m] ↔
      m ∈ i.declared ∧ ∀ m' ∈ i.declared, m'.name = m.name → m' = m := by
  rw [i.distinct.filter_eq_singleton_iff]
  simp only [decide_true, and_true, decide_eq_true_eq]

/-- What passes the checks of `GetResponse`. -/
theorem checkedCall_eq_ok {methodName : Option String} {texts : Option (List (Option String))} :
    h.checkedCall methodName texts = .ok (m, args) ↔
      h.contract.getMethod methodName = .ok (some m) ∧ m.returnType.isTask = true ∧
        m.returnType.isGenericType = true ∧
        ∃ values, texts = some values ∧ m.parameters.length = values.length ∧
          h.typedParameters m.name m.parameters values = .ok args := by
  unfold MessageHandler.checkedCall
  refine ⟨?_, ?_⟩
  · intro hcall
    split at hcall
    · cases hcall
    · cases hcall
    · rename_i m' hget
      split at hcall
      · cases hcall
      · rename_i htask
        split at hcall
        · cases hcall
        · rename_i hgeneric
          split at hcall
          · cases hcall
          · rename_i values
            dsimp only at hcall
            split at hcall
            · cases hcall
            · rename_i hlength
              cases htyped : h.typedParameters m'.name m'.parameters values with
              | error e =>
                  rw [htyped] at hcall
                  cases hcall
              | ok typed =>
                  rw [htyped] at hcall
                  cases hcall
                  exact ⟨hget, Decidable.of_not_not htask, Decidable.of_not_not hgeneric, values,
                    rfl, Decidable.of_not_not hlength, htyped⟩
  · rintro ⟨hget, htask, hgeneric, values, rfl, hlength, htyped⟩
    simp [hget, htask, hgeneric, hlength, htyped, Except.map]

/-- The invocations are those of `GetResponse`. -/
theorem handleRequest_invoked :
    (h.handleRequest request).invoked = (h.getResponse request.methodName request.args).1 := by
  unfold MessageHandler.handleRequest
  split
  · rename_i hget
    rw [hget]
  · rename_i hget
    rw [hget]
    split
    · rfl
    · rfl

theorem getResponse_invoked {methodName : Option String} {texts : Option (List (Option String))}
    (hcall : h.checkedCall methodName texts = .ok (m, args)) :
    (h.getResponse methodName texts).1 = (h.invoke m args).1 := by
  unfold MessageHandler.getResponse
  rw [hcall]
  dsimp only
  split
  · rename_i hinvoke
    rw [hinvoke]
  · rename_i hinvoke
    rw [hinvoke]
  · rename_i hinvoke
    rw [hinvoke]

theorem invoke_invoked :
    (h.invoke m args).1 = if m.genericParameters ≠ 0 then [] else [(m, args)] := by
  unfold MessageHandler.invoke
  split
  · rfl
  · split
    · rfl
    · rfl

/-- The implementation is called when the checks pass and the method is not generic. -/
theorem handleRequest_invoked_iff :
    (h.handleRequest request).invoked = [(m, args)] ↔
      h.checkedCall request.methodName request.args = .ok (m, args) ∧
        m.genericParameters = 0 := by
  rw [handleRequest_invoked]
  cases hcall : h.checkedCall request.methodName request.args with
  | error e =>
      have hnone : (h.getResponse request.methodName request.args).1 = [] := by
        simp only [MessageHandler.getResponse, hcall]
      rw [hnone]
      simp
  | ok call =>
      obtain ⟨m', args'⟩ := call
      rw [getResponse_invoked hcall, invoke_invoked]
      by_cases hgeneric : m'.genericParameters ≠ 0
      · rw [if_pos hgeneric]
        refine ⟨?_, ?_⟩
        · intro hnil
          cases hnil
        · rintro ⟨heq, hzero⟩
          cases heq
          exact absurd hzero hgeneric
      · rw [if_neg hgeneric]
        refine ⟨?_, ?_⟩
        · intro heq
          cases heq
          exact ⟨rfl, Decidable.of_not_not hgeneric⟩
        · rintro ⟨heq, -⟩
          cases heq
          rfl

-- ============================================================================
-- What is sent
-- ============================================================================

/-- A reply answers the request: it echoes the correlation id and the routing key. -/
def RemoteResponse.Echoes (r : RemoteResponse V) (request : RemoteRequest) : Prop :=
  ∃ headers, request.headers = some headers ∧
    r.headers.correlationId = headers.correlationId ∧ r.headers.routingKey = headers.routingKey

theorem echoes_of_withHeaders {r r' : RemoteResponse V}
    (hr : r.withHeaders request.headers = .ok r') : r'.Echoes request := by
  cases hheaders : request.headers with
  | none =>
      rw [hheaders] at hr
      cases hr
  | some headers =>
      rw [hheaders] at hr
      cases hr
      exact ⟨headers, hheaders, rfl, rfl⟩

/-- What `Send` was given, if it has sent it. -/
theorem mem_trySend {msg : Except Exception (RemoteResponse V)} {r : RemoteResponse V}
    (hr : r ∈ (h.trySend msg).1) : msg = .ok r := by
  unfold MessageHandler.trySend at hr
  split at hr
  · cases hr
  · split at hr
    · cases hr
    · rw [List.mem_singleton.mp hr]

theorem mem_sendResponse {response : Option V} {r : RemoteResponse V}
    (hr : r ∈ (h.sendResponse response request.headers).1) : r.Echoes request := by
  have hmsg := mem_trySend hr
  cases hof : RemoteResponse.ofResponse h.runtime.fullName response with
  | error e =>
      rw [hof] at hmsg
      cases hmsg
  | ok msg =>
      rw [hof] at hmsg
      exact echoes_of_withHeaders hmsg

theorem mem_catchException {e : Exception} {r : RemoteResponse V}
    (hr : r ∈ (h.catchException e request.headers).1) : r.Echoes request := by
  unfold MessageHandler.catchException at hr
  split at hr
  · cases hr
  · exact echoes_of_withHeaders (mem_trySend hr)

/-- **All three replies echo the request.** -/
theorem mem_handleRequest_sent {r : RemoteResponse V}
    (hr : r ∈ (h.handleRequest request).sent) : r.Echoes request := by
  unfold MessageHandler.handleRequest at hr
  split at hr
  · exact mem_catchException hr
  · rename_i response _
    have hreply : ∀ sent ended, h.sendResponse response request.headers = (sent, ended) →
        r ∈ sent → r.Echoes request := by
      intro sent ended hsend hmem
      have hmem' : r ∈ (h.sendResponse response request.headers).1 := by
        rw [hsend]
        exact hmem
      exact mem_sendResponse hmem'
    split at hr
    · exact hreply _ _ ‹_› hr
    · rcases List.mem_append.mp hr with hr | hr
      · exact hreply _ _ ‹_› hr
      · exact mem_catchException hr

/-- The reply that carries an exception. -/
def errorReply (e : Exception) (headers : MessageHeaders) : RemoteResponse V :=
  { RemoteResponse.ofException e with
    headers := { correlationId := headers.correlationId, routingKey := headers.routingKey } }

/-- A catch clause answers with the exception it finds. -/
theorem catchException_of_source {e source : Exception} (hheaders : request.headers = some headers)
    (hsend : ∀ r, h.send r = .ok ()) (hsource : MessageHandler.sourceException e = .ok source) :
    h.catchException e request.headers = ([errorReply source headers], .ok true) := by
  simp only [MessageHandler.catchException, hsource, MessageHandler.sendErrorResponse, hheaders,
    RemoteResponse.withHeaders, MessageHandler.trySend, hsend]
  rfl

theorem handleRequest_of_error {invoked : List (MethodInfo Ty × List (Option V))}
    {e source : Exception} (hheaders : request.headers = some headers)
    (hsend : ∀ r, h.send r = .ok ())
    (hget : h.getResponse request.methodName request.args = (invoked, .error e))
    (hsource : MessageHandler.sourceException e = .ok source) :
    h.handleRequest request = ⟨invoked, [errorReply source headers], .ok true⟩ := by
  simp only [MessageHandler.handleRequest, hget, catchException_of_source hheaders hsend hsource]

/-- The reply that carries a value. -/
def valueReply (fullName : V → String) (v : V) (headers : MessageHeaders) : RemoteResponse V where
  responseType := fullName v
  response := some v
  headers := { correlationId := headers.correlationId, routingKey := headers.routingKey }
  isFaulted := false
  exception := none

/-- A value is sent as it is. -/
theorem handleRequest_of_value {invoked : List (MethodInfo Ty × List (Option V))} {v : V}
    (hheaders : request.headers = some headers) (hsend : ∀ r, h.send r = .ok ())
    (hget : h.getResponse request.methodName request.args = (invoked, .ok (some v))) :
    h.handleRequest request =
      ⟨invoked, [valueReply h.runtime.fullName v headers], .ok true⟩ := by
  simp only [MessageHandler.handleRequest, hget, MessageHandler.sendResponse,
    RemoteResponse.ofResponse, Except.bind, hheaders, RemoteResponse.withHeaders,
    MessageHandler.trySend, hsend]
  rfl

/-- For null, `response.GetType()` throws, and the second catch clause answers with that. -/
theorem handleRequest_of_null {invoked : List (MethodInfo Ty × List (Option V))}
    (hheaders : request.headers = some headers) (hsend : ∀ r, h.send r = .ok ())
    (hget : h.getResponse request.methodName request.args = (invoked, .ok none)) :
    h.handleRequest request = ⟨invoked, [errorReply .nullReference headers], .ok true⟩ := by
  have hreply : h.sendResponse none request.headers = ([], .error .nullReference) := rfl
  have hcatch := catchException_of_source (h := h) (e := .nullReference) hheaders hsend rfl
  simp only [MessageHandler.handleRequest, hget, hreply, hcatch, List.nil_append]

/-- When the catch clause throws, nothing is sent and the exception escapes. -/
theorem handleRequest_of_escape {invoked : List (MethodInfo Ty × List (Option V))}
    {e escaped : Exception}
    (hget : h.getResponse request.methodName request.args = (invoked, .error e))
    (hsource : MessageHandler.sourceException e = .error escaped) :
    h.handleRequest request = ⟨invoked, [], .error escaped⟩ := by
  simp only [MessageHandler.handleRequest, hget, MessageHandler.catchException, hsource]

-- ============================================================================
-- When the catch clause throws
-- ============================================================================

/-- The implementation throws an `AggregateException` without inner exceptions. -/
def MessageHandler.ThrowsEmpty (h : MessageHandler Ty V) (request : RemoteRequest) : Prop :=
  ∃ m args, h.checkedCall request.methodName request.args = .ok (m, args) ∧
    m.genericParameters = 0 ∧ h.implementation m args = .threw (.aggregate [])

theorem sourceException_eq_error {e escaped : Exception}
    (hsource : MessageHandler.sourceException e = .error escaped) :
    e = .targetInvocation (some (.aggregate [])) := by
  unfold MessageHandler.sourceException at hsource
  split at hsource
  · rfl
  · cases hsource
  · cases hsource

theorem typedParameters_eq_error {methodName : String} {ps : List (ParameterInfo Ty)}
    {texts : List (Option String)} {e : Exception}
    (htyped : h.typedParameters methodName ps texts = .error e) :
    ∃ type message, e = .other type message := by
  induction ps generalizing texts with
  | nil =>
      cases texts with
      | nil => cases htyped
      | cons arg texts => cases htyped
  | cons p ps ih =>
      cases texts with
      | nil => cases htyped
      | cons arg texts =>
          rw [MessageHandler.typedParameters] at htyped
          split at htyped
          · cases htyped
            exact ⟨_, _, rfl⟩
          · cases hrest : h.typedParameters methodName ps texts with
            | error e' =>
                rw [hrest] at htyped
                cases htyped
                exact ih hrest
            | ok values =>
                rw [hrest] at htyped
                cases htyped

/-- The checks throw nothing that a catch clause would open. -/
theorem checkedCall_eq_error {methodName : Option String} {texts : Option (List (Option String))}
    {e : Exception} (hcall : h.checkedCall methodName texts = .error e) :
    ∃ type message, e = .other type message := by
  unfold MessageHandler.checkedCall at hcall
  split at hcall
  · rename_i hget
    cases hcall
    cases methodName with
    | none =>
        cases hget
        exact ⟨_, _, rfl⟩
    | some name =>
        simp only [ServiceInterface.getMethod] at hget
        split at hget
        · cases hget
        · cases hget
        · cases hget
          exact ⟨_, _, rfl⟩
  · cases hcall
    exact ⟨_, _, rfl⟩
  · rename_i m' _
    split at hcall
    · cases hcall
      exact ⟨_, _, rfl⟩
    · split at hcall
      · cases hcall
        exact ⟨_, _, rfl⟩
      · split at hcall
        · cases hcall
          exact ⟨_, _, rfl⟩
        · rename_i values
          dsimp only at hcall
          split at hcall
          · cases hcall
            exact ⟨_, _, rfl⟩
          · cases htyped : h.typedParameters m'.name m'.parameters values with
            | error e' =>
                rw [htyped] at hcall
                cases hcall
                exact typedParameters_eq_error htyped
            | ok typed =>
                rw [htyped] at hcall
                cases hcall

/-- `GetResponse` throws an empty `AggregateException` only when the implementation does. -/
theorem throwsEmpty_of_getResponse {invoked : List (MethodInfo Ty × List (Option V))}
    (hget : h.getResponse request.methodName request.args =
      (invoked, .error (.targetInvocation (some (.aggregate []))))) :
    h.ThrowsEmpty request := by
  unfold MessageHandler.getResponse at hget
  split at hget
  · rename_i e hcall
    cases hget
    obtain ⟨type, message, heq⟩ := checkedCall_eq_error hcall
    cases heq
  · rename_i m args hcall
    split at hget
    · rename_i e hinvoke
      cases hget
      unfold MessageHandler.invoke at hinvoke
      split at hinvoke
      · cases hinvoke
      · rename_i hclosed
        split at hinvoke
        · rename_i hthrew
          cases hinvoke
          exact ⟨m, args, hcall, Decidable.of_not_not hclosed, hthrew⟩
        · cases hinvoke
    · cases hget
    · rename_i task _
      cases task with
      | completed result => cases hget
      | faulted e others => cases hget
      | canceled => cases hget

/-- **Every request gets one answer**, as long as `Send` works, unless the implementation
    throws an empty `AggregateException`. -/
theorem handleRequest_answers (hheaders : request.headers = some headers)
    (hsend : ∀ r, h.send r = .ok ()) (hempty : ¬ h.ThrowsEmpty request) :
    ∃ r, (h.handleRequest request).sent = [r] ∧ (h.handleRequest request).outcome = .ok true := by
  cases hget : h.getResponse request.methodName request.args with
  | mk invoked ended =>
      cases ended with
      | error e =>
          cases hsource : MessageHandler.sourceException e with
          | error escaped =>
              rw [sourceException_eq_error hsource] at hget
              exact absurd (throwsEmpty_of_getResponse hget) hempty
          | ok source =>
              rw [handleRequest_of_error hheaders hsend hget hsource]
              exact ⟨_, rfl, rfl⟩
      | ok response =>
          cases response with
          | none =>
              rw [handleRequest_of_null hheaders hsend hget]
              exact ⟨_, rfl, rfl⟩
          | some v =>
              rw [handleRequest_of_value hheaders hsend hget]
              exact ⟨_, rfl, rfl⟩

/-- A request whose implementation throws that gets no answer. -/
theorem sent_of_throwsEmpty (hempty : h.ThrowsEmpty request) :
    (h.handleRequest request).sent = [] := by
  obtain ⟨m, args, hcall, hclosed, hfails⟩ := hempty
  have hnot : ¬ m.genericParameters ≠ 0 := Decidable.not_not.mpr hclosed
  have hinvoke : h.invoke m args =
      ([(m, args)], .error (.targetInvocation (some (.aggregate [])))) := by
    rw [MessageHandler.invoke, if_neg hnot, hfails]
  have hget : h.getResponse request.methodName request.args =
      ([(m, args)], .error (.targetInvocation (some (.aggregate [])))) := by
    simp only [MessageHandler.getResponse, hcall, hinvoke]
  rw [handleRequest_of_escape hget rfl]

end Parts

end Milde.Remoting
