/-
  Milde.Remoting.ResponseConverter

  What the client makes of a response (Remoting/Client/ResponseConverter.cs), and which
  exception of the implementation arrives there.

  An exception on its way gains wrappers: `MethodInfo.Invoke` adds one to what a method
  throws, the getter of `Result` two to what a task carries.  The handler takes off two or
  none, so only an exception that the task carries arrives as it was.
-/
import Milde.Remoting.ServiceProxy

namespace Milde.Remoting

variable {Ty V : Type}

namespace ResponseConverter

/-- `Task.FromResult((T) o)`; `cast` is what `(T) o` does. -/
def fromResult (cast : Ty → Option V → Except Exception (Option V)) (targetType : Ty)
    (o : Option V) : Except Exception (Task V) :=
  (cast targetType o).map Task.completed

/-- `Task.FromException<T>(new TargetInvocationException(ex))`. -/
def fromException (ex : Option Exception) : Task V := .faulted (.targetInvocation ex) []

def convert (cast : Ty → Option V → Except Exception (Option V)) (response : RemoteResponse V)
    (targetType : Ty) : Except Exception (Task V) :=
  if response.isFaulted then .ok (fromException response.exception)
  else
    match fromResult cast targetType response.response with
    | .ok task => .ok task
    | .error e => .error (Exception.targetInvocation (some e)).getBaseException

end ResponseConverter

-- ============================================================================
-- Failures of the implementation
-- ============================================================================

/-- How an implementation fails with an exception: it throws, or its task carries it. -/
inductive Failure where
  | thrown
  | carried
deriving DecidableEq, Repr

def Failure.invocation (x : Exception) : Failure → Invocation V
  | thrown => .threw x
  | carried => .returned (some (.faulted x []))

/-- What `GetResponse` throws in a `TargetInvocationException` then. -/
def Failure.wrapped (x : Exception) : Failure → Exception
  | thrown => x
  | carried => .aggregate [x]

/-- The failure arrives: one faulted response that answers the request and has the very
    exception, and on the client a task that has it under one wrapper. -/
def Arrives (h : MessageHandler Ty V) (cast : Ty → Option V → Except Exception (Option V))
    (request : RemoteRequest) (headers : MessageHeaders) (targetType : Ty) (x : Exception) : Prop :=
  ∃ r, (h.handleRequest request).sent = [r] ∧ r.isFaulted = true ∧
    r.headers.correlationId = headers.correlationId ∧ r.exception = some x ∧
    (h.handleRequest request).outcome = .ok true ∧
    ResponseConverter.convert cast r targetType = .ok (.faulted (.targetInvocation (some x)) [])

section Failures

variable {h : MessageHandler Ty V} {request : RemoteRequest} {headers : MessageHeaders}
  {m : MethodInfo Ty} {args : List (Option V)} {x : Exception}

theorem Exception.targetInvocation_ne (x : Exception) : .targetInvocation (some x) ≠ x := by
  intro heq
  have hsize := congrArg sizeOf heq
  simp at hsize
  omega

theorem Exception.head_ne (x : Exception) (rest : List Exception) :
    x ≠ .aggregate (x :: rest) := by
  intro heq
  have hsize := congrArg sizeOf heq
  simp at hsize
  omega

/-- `GetResponse` when the implementation fails. -/
theorem getResponse_of_failure (failure : Failure)
    (hcall : h.checkedCall request.methodName request.args = .ok (m, args))
    (hclosed : m.genericParameters = 0)
    (hfails : h.implementation m args = failure.invocation x) :
    h.getResponse request.methodName request.args =
      ([(m, args)], .error (.targetInvocation (some (failure.wrapped x)))) := by
  have hnot : ¬ m.genericParameters ≠ 0 := Decidable.not_not.mpr hclosed
  cases failure with
  | thrown =>
      have hinvoke : h.invoke m args =
          ([(m, args)], .error (.targetInvocation (some x))) := by
        rw [MessageHandler.invoke, if_neg hnot, hfails]
        rfl
      simp only [MessageHandler.getResponse, hcall, hinvoke, Failure.wrapped]
  | carried =>
      have hinvoke : h.invoke m args = ([(m, args)], .ok (some (.faulted x []))) := by
        rw [MessageHandler.invoke, if_neg hnot, hfails]
        rfl
      simp only [MessageHandler.getResponse, hcall, hinvoke, Task.getResult, Failure.wrapped]

/-- What the catch clauses make of an exception that a method throws is not that
    exception. -/
theorem sourceException_thrown_ne (x : Exception) :
    MessageHandler.sourceException (.targetInvocation (some x)) ≠ .ok x := by
  unfold MessageHandler.sourceException
  split
  · simp
  · rename_i e rest heq
    cases heq
    intro h
    exact Exception.head_ne e rest (Except.ok.inj h)
  · intro h
    exact Exception.targetInvocation_ne x (Except.ok.inj h)

/-- **A failure arrives as the original exception iff the task carries it.** -/
theorem arrives_iff_carried (failure : Failure)
    (cast : Ty → Option V → Except Exception (Option V)) (targetType : Ty)
    (hheaders : request.headers = some headers)
    (hcall : h.checkedCall request.methodName request.args = .ok (m, args))
    (hclosed : m.genericParameters = 0)
    (hfails : h.implementation m args = failure.invocation x)
    (hsend : ∀ r, h.send r = .ok ()) :
    Arrives h cast request headers targetType x ↔ failure = .carried := by
  have hget := getResponse_of_failure failure hcall hclosed hfails
  cases failure with
  | carried =>
      refine ⟨fun _ => rfl, fun _ => ?_⟩
      have hsource : MessageHandler.sourceException
          (.targetInvocation (some (Failure.carried.wrapped x))) = .ok x := rfl
      have hhandled := handleRequest_of_error hheaders hsend hget hsource
      refine ⟨errorReply x headers, ?_, rfl, rfl, rfl, ?_, rfl⟩
      · rw [hhandled]
      · rw [hhandled]
  | thrown =>
      refine ⟨fun harrives => ?_, fun hthrown => by cases hthrown⟩
      exfalso
      obtain ⟨r, hsent, -, -, hexception, -⟩ := harrives
      cases hsource : MessageHandler.sourceException (.targetInvocation (some x)) with
      | error e =>
          rw [handleRequest_of_escape hget hsource] at hsent
          cases hsent
      | ok source =>
          rw [handleRequest_of_error hheaders hsend hget hsource] at hsent
          obtain rfl : errorReply source headers = r := List.singleton_inj.mp hsent
          obtain rfl : source = x := Option.some.inj hexception
          exact sourceException_thrown_ne source hsource

end Failures

section TestInterface

def notImplemented : Exception :=
  .other "System.NotImplementedException" "The method or operation is not implemented."

/-- `(bool) o`. -/
def booleanCast (_ : String) : Option Bool → Except Exception (Option Bool)
  | none => .error .nullReference
  | some b => .ok (some b)

/-- The request for `NotImplementedMethod()`. -/
def notImplementedRequest : RemoteRequest := ⟨some "NotImplementedMethod", some [], some {}⟩

/-- A handler of the tests' interface whose methods all fail in one way. -/
def failingHandler (failure : Failure) : MessageHandler String Bool :=
  booleanHandler testInterface fun _ _ => failure.invocation notImplemented

theorem arrives_of_carried :
    Arrives (failingHandler .carried) booleanCast notImplementedRequest {} "System.Int32"
      notImplemented := by
  have hcall : (failingHandler .carried).checkedCall notImplementedRequest.methodName
      notImplementedRequest.args = .ok (notImplementedMethod, []) := rfl
  exact (arrives_iff_carried .carried booleanCast "System.Int32" rfl hcall rfl rfl
    fun _ => rfl).mpr rfl

/-- `TestImplementation` throws from the method itself: the wrapper of `Invoke` goes out
    with the exception. -/
theorem thrown_arrives_wrapped :
    (failingHandler .thrown).implementation notImplementedMethod [] = .threw notImplemented ∧
    (failingHandler .thrown).handleRequest notImplementedRequest =
      ⟨[(notImplementedMethod, [])], [errorReply (.targetInvocation (some notImplemented)) {}],
        .ok true⟩ ∧
    ¬ Arrives (failingHandler .thrown) booleanCast notImplementedRequest {} "System.Int32"
      notImplemented := by
  refine ⟨rfl, rfl, ?_⟩
  rintro ⟨r, hsent, -, -, hexception, -⟩
  obtain rfl : errorReply (.targetInvocation (some notImplemented)) {} = r :=
    List.singleton_inj.mp hsent
  exact Exception.targetInvocation_ne _ (Option.some.inj hexception)

end TestInterface

end Milde.Remoting
