/-
  Milde.Remoting.Messages

  What the remoting layer passes around: exceptions, tasks, and the two kinds of message
  (Remoting/Communication/RemoteRequest.cs, Remoting/Communication/RemoteResponse.cs,
  Remoting/Contracts/MessageHeaders.cs).

  A reference that may be null is an `Option`.  An exception keeps what the code looks at:
  the two wrappers it opens, and of any other exception its type and its message.
-/

namespace Milde.Remoting

/-- An exception object. -/
inductive Exception where
  | targetInvocation (inner : Option Exception)
  | aggregate (inner : List Exception)
  | other (type message : String)

namespace Exception

/-- `exception.GetType().FullName`. -/
def fullName : Exception → String
  | targetInvocation _ => "System.Reflection.TargetInvocationException"
  | aggregate _ => "System.AggregateException"
  | other type _ => type

/-- `GetBaseException()`: down the chain of `InnerException`. -/
def getBaseException : Exception → Exception
  | targetInvocation (some inner) => inner.getBaseException
  | aggregate (inner :: _) => inner.getBaseException
  | e => e

def nullReference : Exception :=
  other "System.NullReferenceException" "Object reference not set to an instance of an object."

def argument (message : String) : Exception := other "System.ArgumentException" message

/-- The name of the parameter stands on a line of its own, as .NET Core 2 writes it on
    Linux. -/
def argumentNull (parameter : String) : Exception :=
  other "System.ArgumentNullException" s!"Value cannot be null.\nParameter name: {parameter}"

def invalidOperation (message : String) : Exception :=
  other "System.InvalidOperationException" message

def missingMethod (className methodName : String) : Exception :=
  other "System.MissingMethodException" s!"Method '{className}.{methodName}' not found."

def ambiguousMatch : Exception :=
  other "System.Reflection.AmbiguousMatchException" "Ambiguous match found."

def taskCanceled : Exception :=
  other "System.Threading.Tasks.TaskCanceledException" "A task was canceled."

end Exception

/-- How a task ends.  A faulted task has at least one exception. -/
inductive Task (V : Type) where
  | completed (result : Option V)
  | faulted (exception : Exception) (others : List Exception)
  | canceled

/-- The getter of `Result`, called through reflection. -/
def Task.getResult {V : Type} : Task V → Except Exception (Option V)
  | completed result => .ok result
  | faulted exception others =>
      .error (.targetInvocation (some (.aggregate (exception :: others))))
  | canceled => .error (.targetInvocation (some (.aggregate [.taskCanceled])))

structure MessageHeaders where
  routingKey : Option String := none
  correlationId : Option String := none
  replyTo : Option String := none
deriving DecidableEq, Repr

structure RemoteRequest where
  methodName : Option String
  args : Option (List (Option String))
  headers : Option MessageHeaders
deriving DecidableEq, Repr

/-- `RemoteRequest(string methodName, string[] args)`. -/
def RemoteRequest.create (methodName : String) (args : List String) : RemoteRequest :=
  { methodName := some methodName, args := some (args.map some), headers := some {} }

structure RemoteResponse (V : Type) where
  responseType : String
  response : Option V
  headers : MessageHeaders
  isFaulted : Bool
  exception : Option Exception

namespace RemoteResponse

variable {V : Type}

/-- `RemoteResponse(object response)`. -/
def ofResponse (fullName : V → String) : Option V → Except Exception (RemoteResponse V)
  | none => .error .nullReference
  | some v => .ok
      { responseType := fullName v
        response := some v
        headers := {}
        isFaulted := false
        exception := none }

/-- `RemoteResponse(Exception exception)`. -/
def ofException (e : Exception) : RemoteResponse V :=
  { responseType := e.fullName
    response := none
    headers := {}
    isFaulted := true
    exception := some e }

/-- The initializer `Headers = { CorrelationId = …, RoutingKey = … }` of both replies. -/
def withHeaders (r : RemoteResponse V) :
    Option MessageHeaders → Except Exception (RemoteResponse V)
  | none => .error .nullReference
  | some requestHeaders => .ok { r with
      headers := { r.headers with
        correlationId := requestHeaders.correlationId
        routingKey := requestHeaders.routingKey } }

/-- What the client reads when JSON makes `read v` of a result `v`: only the result is of
    declared type `object`, all else comes back as it was. -/
def readBack (read : V → Option V) (r : RemoteResponse V) : Option (RemoteResponse V) :=
  match r.response with
  | none => some r
  | some v => (read v).map fun v => { r with response := some v }

end RemoteResponse

end Milde.Remoting
