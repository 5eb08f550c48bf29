/-
  Milde.Remoting.Validation

  Which requests reach the implementation, and how they are answered
  (Remoting/Service/MessageHandler.cs, Remoting/Communication/RemoteResponse.cs).

  `ValidCall` says what `GetResponse` checks, without its order and its loop: the method is
  the only declared one of its name, its return type is a generic task, and there is one
  argument for each parameter, which reads at the parameter's type.  Valid requests, and no
  others, are invoked (`handleRequest_validates`).  A call that returns a value is answered
  with it; one that returns null is answered with a fault, since the constructor of the
  reply takes the type of the value (`answered_iff`).
-/
import Milde.Remoting.ServiceProxy

namespace Milde.Remoting

variable {Ty V : Type}

/-- The request calls the method with the values. -/
def MessageHandler.ValidCall (h : MessageHandler Ty V) (request : RemoteRequest)
    (m : MethodInfo Ty) (values : List (Option V)) : Prop :=
  request.methodName = some m.name ∧
    (m ∈ h.contract.declared ∧ ∀ m' ∈ h.contract.declared, m'.name = m.name → m' = m) ∧
    (∃ result, m.returnType = .taskOf result) ∧
    ∃ args, request.args = some args ∧ m.parameters.length = args.length ∧
      values.length = args.length ∧
      ∀ (i : Nat) p arg, m.parameters[i]? = some p → args[i]? = some arg →
        ∃ v, h.parse p.parameterType arg = .ok v ∧ values[i]? = some v

/-- One response was sent, a faulted one that echoes the request, and the call ended with
    `true`. -/
def Handled.Rejects (handled : Handled Ty V) (request : RemoteRequest) : Prop :=
  ∃ r, handled.sent = [r] ∧ r.isFaulted = true ∧ r.Echoes request ∧ handled.outcome = .ok true

/-- One response was sent, the result without a fault, which echoes the request, and the
    call ended with `true`. -/
def Handled.Answers (handled : Handled Ty V) (request : RemoteRequest) (result : Option V) :
    Prop :=
  ∃ r, handled.sent = [r] ∧ r.isFaulted = false ∧ r.response = result ∧ r.Echoes request ∧
    handled.outcome = .ok true

/-- The request is valid, and the task of its method completes with the result. -/
def MessageHandler.Completes (h : MessageHandler Ty V) (request : RemoteRequest)
    (result : Option V) : Prop :=
  ∃ m values, h.ValidCall request m values ∧ m.genericParameters = 0 ∧
    h.implementation m values = .returned (some (.completed result))

section Validation

variable {h : MessageHandler Ty V} {request : RemoteRequest} {headers : MessageHeaders}
  {m : MethodInfo Ty} {values : List (Option V)}

theorem ReturnType.isGenericType_iff {t : ReturnType Ty} :
    t.isGenericType = true ↔ ∃ result, t = .taskOf result := by
  cases t with
  | other => exact iff_of_false Bool.false_ne_true (by rintro ⟨result, h⟩; cases h)
  | task => exact iff_of_false Bool.false_ne_true (by rintro ⟨result, h⟩; cases h)
  | taskOf result => exact iff_of_true rfl ⟨result, rfl⟩

theorem ReturnType.isTask_of_isGenericType {t : ReturnType Ty} (ht : t.isGenericType = true) :
    t.isTask = true := by
  obtain ⟨result, rfl⟩ := isGenericType_iff.mp ht
  rfl

/-- The loop reads the first argument at the first parameter's type, and goes on. -/
theorem typedParameters_cons_eq_ok {methodName : String} {p : ParameterInfo Ty}
    {ps : List (ParameterInfo Ty)} {arg : Option String} {args : List (Option String)} :
    h.typedParameters methodName (p :: ps) (arg :: args) = .ok values ↔
      ∃ v rest, h.parse p.parameterType arg = .ok v ∧
        h.typedParameters methodName ps args = .ok rest ∧ values = v :: rest := by
  rw [MessageHandler.typedParameters]
  cases hparse : h.parse p.parameterType arg with
  | error e => exact iff_of_false (by intro heq; cases heq) (by rintro ⟨v, rest, heq, -⟩; cases heq)
  | ok v =>
      cases hrest : h.typedParameters methodName ps args with
      | error e =>
          apply iff_of_false (by intro heq; cases heq)
          rintro ⟨v, rest, -, heq, -⟩
          cases heq
      | ok rest =>
          refine ⟨?_, ?_⟩
          · intro heq
            cases heq
            exact ⟨v, rest, rfl, rfl, rfl⟩
          · rintro ⟨v', rest', hv, hrest', rfl⟩
            cases hv
            cases hrest'
            rfl

/-- **The loop** succeeds iff each argument reads at its parameter's type, and leaves what
    was read in the argument's place. -/
theorem typedParameters_eq_ok {methodName : String} {ps : List (ParameterInfo Ty)}
    {args : List (Option String)} (hlength : ps.length = args.length) :
    h.typedParameters methodName ps args = .ok values ↔ values.length = args.length ∧
      ∀ (i : Nat) p arg, ps[i]? = some p → args[i]? = some arg →
        ∃ v, h.parse p.parameterType arg = .ok v ∧ values[i]? = some v := by
  induction ps generalizing args values with
  | nil =>
      obtain rfl : args = [] := List.eq_nil_of_length_eq_zero hlength.symm
      rw [MessageHandler.typedParameters, Except.ok.injEq]
      refine ⟨?_, ?_⟩
      · rintro rfl
        refine ⟨rfl, fun i p arg hp => ?_⟩
        cases hp
      · rintro ⟨hvalues, -⟩
        exact (List.eq_nil_of_length_eq_zero hvalues).symm
      · intro p ps arg args hps
        cases hps
  | cons p ps ih =>
      obtain ⟨arg, args, rfl⟩ := List.exists_cons_of_length_eq_add_one hlength.symm
      rw [typedParameters_cons_eq_ok]
      refine ⟨?_, ?_⟩
      · rintro ⟨v, rest, hparse, hrest, rfl⟩
        obtain ⟨hcount, hplaces⟩ := (ih (Nat.succ.inj hlength)).mp hrest
        refine ⟨congrArg Nat.succ hcount, fun i p' arg' hp' harg' => ?_⟩
        cases i with
        | zero =>
            cases hp'
            cases harg'
            exact ⟨v, hparse, rfl⟩
        | succ i => exact hplaces i p' arg' hp' harg'
      · rintro ⟨hcount, hplaces⟩
        obtain ⟨v, rest, rfl⟩ := List.exists_cons_of_length_eq_add_one hcount
        obtain ⟨v', hparse, hv'⟩ := hplaces 0 p arg rfl rfl
        obtain rfl : v = v' := Option.some.inj hv'
        refine ⟨v, rest, hparse, (ih (Nat.succ.inj hlength)).mpr ⟨Nat.succ.inj hcount, ?_⟩, rfl⟩
        intro i p' arg' hp' harg'
        exact hplaces (i + 1) p' arg' hp' harg'

/-- **The checks** let a request through iff it is valid. -/
theorem validCall_iff : h.ValidCall request m values ↔
    h.checkedCall request.methodName request.args = .ok (m, values) := by
  rw [checkedCall_eq_ok, ServiceInterface.getMethod_eq_some, ServiceInterface.filter_eq_singleton,
    MessageHandler.ValidCall, ← ReturnType.isGenericType_iff]
  refine ⟨?_, ?_⟩
  · rintro ⟨hname, honly, hgeneric, args, hargs, hlength, htyped⟩
    exact ⟨⟨hname, honly⟩, ReturnType.isTask_of_isGenericType hgeneric, hgeneric, args, hargs,
      hlength, (typedParameters_eq_ok hlength).mpr htyped⟩
  · rintro ⟨⟨hname, honly⟩, -, hgeneric, args, hargs, hlength, htyped⟩
    exact ⟨hname, honly, hgeneric, args, hargs, hlength, (typedParameters_eq_ok hlength).mp htyped⟩

/-- A request that fails a check is answered with the exception of the check. -/
theorem rejects_of_checkedCall {e : Exception} (hheaders : request.headers = some headers)
    (hsend : ∀ r, h.send r = .ok ())
    (hcall : h.checkedCall request.methodName request.args = .error e) :
    (h.handleRequest request).invoked = [] ∧ (h.handleRequest request).Rejects request := by
  -- none of the exceptions is one that the first catch clause opens
  obtain ⟨type, message, rfl⟩ := checkedCall_eq_error hcall
  have hget : h.getResponse request.methodName request.args =
      ([], .error (.other type message)) := by
    simp only [MessageHandler.getResponse, hcall]
  have hhandled := handleRequest_of_error hheaders hsend hget rfl
  rw [hhandled]
  exact ⟨rfl, _, rfl, rfl, ⟨headers, hheaders, rfl, rfl⟩, rfl⟩

/-- **Only valid requests reach the implementation**, once each and with every argument in
    its place; any other is answered with a fault. -/
theorem handleRequest_validates (hheaders : request.headers = some headers)
    (hsend : ∀ r, h.send r = .ok ())
    (hclosed : ∀ m ∈ h.contract.declared, m.genericParameters = 0) :
    (∀ m values, h.ValidCall request m values →
      (h.handleRequest request).invoked = [(m, values)]) ∧
    ((¬ ∃ m values, h.ValidCall request m values) →
      (h.handleRequest request).invoked = [] ∧ (h.handleRequest request).Rejects request) := by
  refine ⟨fun m values hvalid => ?_, fun hinvalid => ?_⟩
  · exact handleRequest_invoked_iff.mpr ⟨validCall_iff.mp hvalid, hclosed m hvalid.2.1.1⟩
  · cases hcall : h.checkedCall request.methodName request.args with
    | error e => exact rejects_of_checkedCall hheaders hsend hcall
    | ok call => exact absurd ⟨call.1, call.2, validCall_iff.mpr hcall⟩ hinvalid

-- ============================================================================
-- Results
-- ============================================================================

/-- What `GetResponse` returns is the result of the task. -/
theorem getResponse_of_completes {result : Option V} (hcompletes : h.Completes request result) :
    ∃ invoked, h.getResponse request.methodName request.args = (invoked, .ok result) := by
  obtain ⟨m, values, hvalid, hclosed, hresult⟩ := hcompletes
  have hnot : ¬ m.genericParameters ≠ 0 := Decidable.not_not.mpr hclosed
  have hinvoke : h.invoke m values = ([(m, values)], .ok (some (.completed result))) := by
    rw [MessageHandler.invoke, if_neg hnot, hresult]
  refine ⟨[(m, values)], ?_⟩
  simp only [MessageHandler.getResponse, validCall_iff.mp hvalid, hinvoke, Task.getResult]

/-- **A successful call is answered with its result** iff the result is not null. -/
theorem answered_iff {result : Option V} (hheaders : request.headers = some headers)
    (hsend : ∀ r, h.send r = .ok ()) (hcompletes : h.Completes request result) :
    (h.handleRequest request).Answers request result ↔ result ≠ none := by
  obtain ⟨invoked, hget⟩ := getResponse_of_completes hcompletes
  cases result with
  | none =>
      refine iff_of_false ?_ fun hnot => hnot rfl
      rw [handleRequest_of_null hheaders hsend hget]
      rintro ⟨r, hsent, hfaulted, -⟩
      rw [← (List.cons_eq_cons.mp hsent).1] at hfaulted
      cases hfaulted
  | some v =>
      refine iff_of_true ?_ (Option.some_ne_none v)
      rw [handleRequest_of_value hheaders hsend hget]
      exact ⟨_, rfl, rfl, rfl, ⟨headers, hheaders, rfl, rfl⟩, rfl⟩

end Validation

-- ============================================================================
-- The interface of the tests
-- ============================================================================

section TestInterface

/-- `Task<object> AsyncObjectMethod()`. -/
def asyncObjectMethod : MethodInfo String where
  declaringType := testInterfaceType
  name := "AsyncObjectMethod"
  genericParameters := 0
  parameters := []
  returnType := .taskOf "System.Object"

def asyncInterface : ServiceInterface String where
  type := testInterfaceType
  declared := [asyncBooleanMethod, asyncObjectMethod]
  inherited := []
  declaredHere m hm := by
    rcases List.mem_cons.mp hm with rfl | hm
    · rfl
    · rw [List.mem_singleton.mp hm]
      rfl
  inheritedElsewhere m hm := by cases hm
  distinct := by decide

/-- An implementation whose methods return `result`. -/
def returningHandler (result : Option Bool) : MessageHandler String Bool :=
  booleanHandler asyncInterface fun _ _ => .returned (some (.completed result))

/-- The request for `AsyncObjectMethod()`. -/
def objectRequest : RemoteRequest := ⟨some "AsyncObjectMethod", some [], some {}⟩

theorem handleRequest_validates_boolean :
    ((returningHandler (some true)).handleRequest booleanRequest).invoked =
        [(asyncBooleanMethod, [some true])] ∧
      ((returningHandler (some true)).handleRequest
        { objectRequest with args := some [none] }).Rejects
          { objectRequest with args := some [none] } := by
  have hvalidates := fun (request : RemoteRequest) (hheaders : request.headers = some {}) =>
    handleRequest_validates (h := returningHandler (some true)) hheaders (fun _ => rfl)
      (by decide)
  refine ⟨(hvalidates booleanRequest rfl).1 _ _ (validCall_iff.mpr rfl), ?_⟩
  refine ((hvalidates { objectRequest with args := some [none] } rfl).2 ?_).2
  rintro ⟨m, values, hvalid⟩
  cases validCall_iff.mp hvalid

/-- A method that may return null. -/
theorem completes_objectRequest (result : Option Bool) :
    (returningHandler result).Completes objectRequest result :=
  ⟨asyncObjectMethod, [], validCall_iff.mpr rfl, rfl, rfl⟩

theorem answered_true :
    ((returningHandler (some true)).handleRequest objectRequest).Answers objectRequest
      (some true) :=
  (answered_iff (h := returningHandler (some true)) rfl (fun _ => rfl)
    (completes_objectRequest (some true))).mpr nofun

/-- The method was called and returned null, and its caller is told that it failed. -/
theorem not_answered_null :
    (returningHandler none).Completes objectRequest none ∧
      ((returningHandler none).handleRequest objectRequest).invoked =
        [(asyncObjectMethod, [])] ∧
      ((returningHandler none).handleRequest objectRequest).sent =
        [errorReply .nullReference {}] ∧
      ¬ ((returningHandler none).handleRequest objectRequest).Answers objectRequest none := by
  refine ⟨completes_objectRequest none, rfl, rfl, ?_⟩
  rintro ⟨r, hsent, hfaulted, -⟩
  cases hsent
  cases hfaulted

end TestInterface

end Milde.Remoting
