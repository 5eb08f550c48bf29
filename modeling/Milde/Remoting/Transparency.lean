/-
  Milde.Remoting.Transparency

  A remote object next to the object itself.

  A caller of a proxy gets what the implementation does, changed on the way: what a method
  throws comes in the wrapper of `Invoke`, null as a `NullReferenceException`, an exception
  of a task without its wrappers, and everything that is not a result under one more
  wrapper (`Invocation.reply`, `callerTask`).  Apart from that the clients of a service
  work on one local object: its methods have been called once for every request that was
  served, one after the other, with the arguments that the clients gave (`transparent`).

  A result comes as what the client's JSON reader makes of it (`received`); what that is,
  kind by kind, is the subject of Milde.Remoting.RoundTrip.
-/
import Mathlib.Data.Set.Image
import Mathlib.Data.Set.List
import Milde.Remoting.Linearizable
import Milde.Remoting.ResponseConverter

namespace Milde.Remoting

open TopicExchange SequentialLog

variable {Ty V S : Type}

-- ============================================================================
-- What a caller gets
-- ============================================================================

/-- What goes back for what the implementation does: a value, an exception, or nothing. -/
def Invocation.reply : Invocation V → Option (Except Exception V)
  | .threw (.aggregate []) => none
  | .threw (.aggregate (e :: _)) => some (.error e)
  | .threw e => some (.error (.targetInvocation (some e)))
  | .returned none => some (.error .nullReference)
  | .returned (some (.completed none)) => some (.error .nullReference)
  | .returned (some (.completed (some v))) => some (.ok v)
  | .returned (some (.faulted e _)) => some (.error e)
  | .returned (some .canceled) => some (.error .taskCanceled)

/-- What the proxy returns for it. -/
def callerTask (cast : Ty → Option V → Except Exception (Option V)) (t : Ty) :
    Except Exception V → Except Exception (Task V)
  | .error e => .ok (.faulted (.targetInvocation (some e)) [])
  | .ok v =>
      match cast t (some v) with
      | .ok o => .ok (.completed o)
      | .error e => .error e.getBaseException

/-- What JSON leaves of it, when it makes `read v` of a result `v`. -/
def readAnswer (read : V → Option V) : Except Exception V → Option (Except Exception V)
  | .error e => some (.error e)
  | .ok v => (read v).map .ok

/-- The task that the client makes of a response which it has to read first; `none` when it
    cannot read it. -/
def received (read : V → Option V) (cast : Ty → Option V → Except Exception (Option V))
    (r : RemoteResponse V) (t : Ty) : Option (Except Exception (Task V)) :=
  (r.readBack read).map fun r => ResponseConverter.convert cast r t

/-- The messages that bring it. -/
def repliesOf (fullName : V → String) (headers : MessageHeaders) :
    Option (Except Exception V) → List (RemoteResponse V)
  | none => []
  | some (.error e) => [errorReply e headers]
  | some (.ok v) => [valueReply fullName v headers]

section Handler

variable {h : MessageHandler Ty V} {m : MethodInfo Ty} {args : List (Option V)}
  {request : RemoteRequest} {headers : MessageHeaders} {fullName : V → String}

/-- What `GetResponse` makes of what the implementation does. -/
theorem getResponse_of_call
    (hcall : h.checkedCall request.methodName request.args = .ok (m, args))
    (hclosed : m.genericParameters = 0) :
    h.getResponse request.methodName request.args = ([(m, args)],
      match h.implementation m args with
      | .threw e => .error (.targetInvocation (some e))
      | .returned none => .error .nullReference
      | .returned (some task) => task.getResult) := by
  have hnot : ¬ m.genericParameters ≠ 0 := Decidable.not_not.mpr hclosed
  simp only [MessageHandler.getResponse, hcall, MessageHandler.invoke, if_neg hnot]
  cases h.implementation m args with
  | threw e => rfl
  | returned task =>
      cases task with
      | none => rfl
      | some task => rfl

/-- **What the handler sends** is what the implementation does, as a reply. -/
theorem sent_of_call (hheaders : request.headers = some headers)
    (hsend : ∀ r, h.send r = .ok ())
    (hcall : h.checkedCall request.methodName request.args = .ok (m, args))
    (hclosed : m.genericParameters = 0) :
    (h.handleRequest request).sent =
      repliesOf h.runtime.fullName headers (h.implementation m args).reply := by
  have hget := getResponse_of_call hcall hclosed
  cases hdoes : h.implementation m args with
  | threw e =>
      rw [hdoes] at hget
      cases e with
      | aggregate inner =>
          cases inner with
          | nil =>
              rw [handleRequest_of_escape hget rfl]
              rfl
          | cons e rest =>
              rw [handleRequest_of_error hheaders hsend hget rfl]
              rfl
      | targetInvocation inner =>
          rw [handleRequest_of_error hheaders hsend hget rfl]
          rfl
      | other type message =>
          rw [handleRequest_of_error hheaders hsend hget rfl]
          rfl
  | returned task =>
      rw [hdoes] at hget
      rcases task with - | (- | v) | ⟨e, others⟩ | -
      · rw [handleRequest_of_error hheaders hsend hget rfl]
        rfl
      · rw [handleRequest_of_null hheaders hsend hget]
        rfl
      · rw [handleRequest_of_value hheaders hsend hget]
        rfl
      · rw [handleRequest_of_error hheaders hsend hget rfl]
        rfl
      · rw [handleRequest_of_error hheaders hsend hget rfl]
        rfl

/-- A response with a value is cast. -/
theorem convert_valueReply (cast : Ty → Option V → Except Exception (Option V)) (t : Ty)
    (v v' : V) :
    ResponseConverter.convert cast { valueReply fullName v headers with response := some v' } t =
      callerTask cast t (.ok v') := by
  have hresult : ResponseConverter.fromResult cast t (some v') =
      (cast t (some v')).map Task.completed := rfl
  cases hcast : cast t (some v') with
  | error e =>
      rw [hcast] at hresult
      simp only [ResponseConverter.convert, valueReply, hresult, callerTask, hcast]
      rfl
  | ok o =>
      rw [hcast] at hresult
      simp only [ResponseConverter.convert, valueReply, hresult, callerTask, hcast]
      rfl

/-- What the client makes of a reply. -/
theorem received_of_repliesOf {reply : Option (Except Exception V)} {r : RemoteResponse V}
    (hreply : repliesOf fullName headers reply = [r]) :
    ∃ answer, reply = some answer ∧
      ∀ read (cast : Ty → Option V → Except Exception (Option V)) t,
        received read cast r t = (readAnswer read answer).map (callerTask cast t) := by
  cases reply with
  | none => cases hreply
  | some answer =>
      refine ⟨answer, rfl, fun read cast t => ?_⟩
      cases answer with
      | error e =>
          cases hreply
          rfl
      | ok v =>
          cases hreply
          have hread : received read cast (valueReply fullName v headers) t =
              (read v).map fun v' => ResponseConverter.convert cast
                { valueReply fullName v headers with response := some v' } t :=
            Option.map_map ..
          simp only [hread, convert_valueReply, readAnswer, Option.map_map]
          rfl

end Handler

-- ============================================================================
-- Requests and calls
-- ============================================================================

/-- The request is the one that a proxy makes of a call, and the arguments survive JSON. -/
structure Service.Asks (s : Service Ty V) (q : RemoteRequest) (m : MethodInfo Ty)
    (args : List (Option V)) : Prop where
  method : m ∈ s.contract.methods
  request : ∃ request key k, proxyRequest s.runtime s.contract m args = .ok (request, key) ∧
    q = request.setHeaders k key
  count : m.parameters.length = args.length
  survive : ∀ p arg, (p, arg) ∈ m.parameters.zip args →
    s.runtime.deserializeObject (s.runtime.serializeObject arg) p.parameterType = .ok arg

/-- A request together with the call that it stands for. -/
structure Entry (s : Service Ty V) where
  request : RemoteRequest
  method : MethodInfo Ty
  args : List (Option V)
  asks : s.Asks request method args

/-- The object itself: a call of a method. -/
def Implementation.direct (impl : Implementation Ty V S) {s : Service Ty V} (state : S)
    (e : Entry s) : S × Invocation V :=
  ((impl.call state e.method e.args).2, (impl.call state e.method e.args).1)

/-- What a proxy is given: as many arguments as there are parameters, which JSON reads back
    as they were. -/
def Service.ArgsSurvive (s : Service Ty V) : ServingLabel V → Prop
  | .execute _ _ method args => ∀ m, s.contract.methods[method]? = some m →
      m.parameters.length = args.length ∧ ∀ p arg, (p, arg) ∈ m.parameters.zip args →
        s.runtime.deserializeObject (s.runtime.serializeObject arg) p.parameterType = .ok arg
  | _ => True

section Entries

variable {s : Service Ty V} {impl : Implementation Ty V S}
  (hresolves : ∀ m ∈ s.contract.methods, s.contract.Resolves m)

include hresolves in
/-- The request passes the checks of the handler with its own method and arguments. -/
theorem Entry.checkedCall (e : Entry s)
    (implementation : MethodInfo Ty → List (Option V) → Invocation V) :
    (s.handler implementation).checkedCall e.request.methodName e.request.args =
      .ok (e.method, e.args) := by
  obtain ⟨request, m, args, hmethod, ⟨_, _, k, hproxy, rfl⟩, hcount, hsurvive⟩ := e
  obtain ⟨htask, hgeneric, rfl, rfl⟩ := proxyRequest_eq_ok.mp hproxy
  obtain ⟨hmem, honly, -⟩ := hresolves m hmethod
  have htyped := typedParameters_serialized (h := s.handler implementation) m.name hcount hsurvive
  rw [checkedCall_eq_ok, ServiceInterface.getMethod_eq_some, ServiceInterface.filter_eq_singleton]
  exact ⟨⟨rfl, hmem, honly⟩, htask, hgeneric, _, rfl, by simpa using hcount, htyped⟩

include hresolves in
/-- A request stands for one call. -/
theorem Entry.eq_of_request {e e' : Entry s} (h : e.request = e'.request) : e = e' := by
  have hcall := e.checkedCall hresolves fun _ _ => .returned none
  have hcall' := e'.checkedCall hresolves fun _ _ => .returned none
  rw [h, hcall'] at hcall
  obtain ⟨request, m, args, asks⟩ := e
  obtain ⟨request', m', args', asks'⟩ := e'
  cases h
  cases hcall
  rfl

include hresolves in
/-- **Serving a request calls its method** and sends what comes of it. -/
theorem Entry.serve (e : Entry s) (state : S) :
    (impl.serve s state e.request).1 = (impl.direct state e).1 ∧
      ∃ headers, (impl.serve s state e.request).2 =
        repliesOf s.runtime.fullName headers (impl.direct state e).2.reply := by
  have hcall := e.checkedCall hresolves (impl.invocation state)
  have hclosed := (hresolves e.method e.asks.method).2.2
  refine ⟨?_, ?_⟩
  · have hinvoked := handleRequest_invoked_iff.mpr ⟨hcall, hclosed⟩
    simp only [Implementation.serve, hinvoked, List.foldl_cons, List.foldl_nil]
    rfl
  · obtain ⟨_, _, k, hproxy, hrequest⟩ := e.asks.request
    obtain ⟨-, -, rfl, rfl⟩ := proxyRequest_eq_ok.mp hproxy
    obtain ⟨headers, hheaders⟩ : ∃ headers, e.request.headers = some headers := by
      rw [hrequest]
      exact ⟨_, rfl⟩
    exact ⟨headers, sent_of_call hheaders (fun _ => rfl) hcall hclosed⟩

end Entries

-- ============================================================================
-- Runs
-- ============================================================================

section Runs

variable {s : Service Ty V} {impl : Implementation Ty V S} {w w' : Serving V S}
  {l : ServingLabel V}

/-- Every call was made through a proxy. -/
def Serving.Proxied (s : Service Ty V) (w : Serving V S) : Prop :=
  ∀ (i : Nat) call, w.traffic.clients.calls[i]? = some call →
    ∃ e : Entry s, e.request = call.request

/-- What `execute` registers is a call that was made through a proxy. -/
theorem Serving.Proxied.execute (h : w.Proxied s) (hinv : w.Inv s impl) {process method : Nat}
    {k : String} {args : List (Option V)} {traffic : Traffic V}
    (hargs : s.ArgsSurvive (.execute process k method args))
    (hstep : w.traffic.step s (.execute process k method args) = some traffic) :
    ∀ (i : Nat) call, traffic.clients.calls[i]? = some call →
      ∃ e : Entry s, e.request = call.request := by
  intro i call hcall
  simp only [Traffic.step] at hstep
  split at hstep
  · cases hstep
  · rename_i m hm
    split at hstep
    · cases hstep
    · rename_i request key hproxy
      obtain ⟨clients, hreg, rfl⟩ := Option.map_eq_some_iff.mp hstep
      have hheaders : request.headers ≠ none := by
        obtain ⟨-, -, rfl, -⟩ := proxyRequest_eq_ok.mp hproxy
        exact Option.some_ne_none _
      obtain ⟨-, -, hcalls⟩ := Clients.register_spec hinv.wf hheaders hreg
      have hcall : clients.calls[i]? = some call := hcall
      rw [hcalls] at hcall
      rcases List.getElem?_append_singleton hcall with hcall | ⟨-, rfl⟩
      · exact h i call hcall
      · obtain ⟨hcount, hsurvive⟩ := hargs m hm
        exact ⟨⟨_, m, args, List.mem_of_getElem? hm, ⟨request, key, k, hproxy, rfl⟩, hcount,
          hsurvive⟩, rfl⟩

/-- No other step makes a call or changes the request of one. -/
theorem Serving.Proxied.step (h : w.Proxied s) (hinv : w.Inv s impl) (hargs : s.ArgsSurvive l)
    (hstep : w.step s impl l = some w') : w'.Proxied s := by
  obtain ⟨traffic, htraffic, hnext⟩ := Serving.step_eq_some hstep
  have hclients : w'.traffic = traffic := by
    obtain ⟨-, rfl⟩ | ⟨q, -, rfl⟩ := hnext
    · rfl
    · rfl
  intro i call hcall
  rw [hclients] at hcall
  rcases Traffic.step_cases htraffic with
    ⟨process, k, method, args, m, clients, hl, -, -, -⟩ | ⟨awaiter, old, -, hold, -, rfl⟩ |
    ⟨n, q, broker, -, -, rfl⟩ | ⟨process, n, r, broker, -, -, rfl⟩ |
    ⟨delivery, implementation, q, acknowledged, -, -, rfl⟩ |
    ⟨delivery, process, r, stage, stage', clients, -, hd, hhandle, rfl⟩
  · cases l <;> cases hl
    exact h.execute hinv hargs htraffic i call hcall
  · rcases List.getElem?_set_cases hcall with ⟨rfl, rfl⟩ | ⟨-, hcall⟩
    · exact h awaiter old hold
    · exact h i call hcall
  · exact h i call hcall
  · exact h i call hcall
  · exact h i call hcall
  · have hvalid := hinv.valid process r stage (List.mem_of_getElem? hd)
    obtain ⟨old, hold, -, hreq, -⟩ := Clients.handleResponse_calls hinv.wf hvalid hhandle hcall
    obtain ⟨e, he⟩ := h i old hold
    exact ⟨e, he.trans hreq.symm⟩

/-- The requests of the log stand for calls, and the state is the one that these calls of
    the object itself lead to. -/
theorem Serving.Proxied.entries (h : w.Proxied s) (hinv : w.Inv s impl)
    (hresolves : ∀ m ∈ s.contract.methods, s.contract.Resolves m) :
    ∃ entries : List (Entry s), entries.map Entry.request = w.log ∧
      w.state = replay impl.direct impl.initial entries := by
  have hlog : w.log ∈ Set.range (List.map (Entry.request (s := s))) := by
    rw [Set.range_list_map]
    intro q hq
    obtain ⟨i, call, hcall, rfl, -⟩ := hinv.logged q hq
    exact h i call hcall
  obtain ⟨entries, hentries⟩ := hlog
  refine ⟨entries, hentries, ?_⟩
  rw [hinv.state, ← hentries, replay_map fun state (e : Entry s) => (e.serve hresolves state).1]

/-- A call that has completed gives its caller what the object did at its place. -/
theorem Serving.Proxied.completed (h : w.Proxied s) (hinv : w.Inv s impl)
    (hresolves : ∀ m ∈ s.contract.methods, s.contract.Resolves m) {entries : List (Entry s)}
    (hentries : entries.map Entry.request = w.log) {i : Nat} {call : Call V}
    (hcall : w.traffic.clients.calls[i]? = some call) :
    ∃ e : Entry s, e.request = call.request ∧
      ∀ c, call.completion = some c → ∃ r invocation answer, c = .result r ∧
        Answered impl.direct impl.initial entries e invocation ∧
        invocation.reply = some answer ∧
        ∀ read (cast : Ty → Option V → Except Exception (Option V)) t,
          received read cast r t = (readAnswer read answer).map (callerTask cast t) := by
  obtain ⟨e, he⟩ := h i call hcall
  refine ⟨e, he, fun c hc => ?_⟩
  obtain ⟨r, rfl, hanswered⟩ := hinv.answered hcall hc
  rw [← hentries, ← he] at hanswered
  obtain ⟨e', state, hsame, hsent, hdirect⟩ :=
    hanswered.of_map fun state (e : Entry s) => (e.serve hresolves state).1
  obtain rfl := Entry.eq_of_request hresolves hsame
  have hserved : ∃ headers, (impl.serve s state e'.request).2 =
      repliesOf s.runtime.fullName headers (impl.direct state e').2.reply :=
    (e'.serve hresolves state).2
  obtain ⟨headers, hreplies⟩ := hserved
  obtain ⟨answer, hanswer, hreceived⟩ := received_of_repliesOf (hreplies.symm.trans hsent)
  exact ⟨r, _, answer, rfl, hdirect, hanswer, hreceived⟩

/-- What holds of every run in which the arguments survive JSON. -/
theorem Serving.proxied_run {ls : List (ServingLabel V)}
    (hargs : Transition.Along (Serving.step s impl) (fun _ l => s.ArgsSurvive l)
      (Serving.init s impl) ls)
    (hrun : Transition.run (Serving.step s impl) (Serving.init s impl) ls = some w) :
    w.Inv s impl ∧ w.Proxied s := by
  refine Transition.run_invariant_along (I := fun v : Serving V S => v.Inv s impl ∧ v.Proxied s)
    ?_ ⟨Serving.inv_init, ?_⟩ hargs hrun
  · rintro v l v' ⟨hinv, hproxied⟩ hargs hstep
    exact ⟨hinv.step hstep, hproxied.step hinv hargs hstep⟩
  · intro i call hcall
    cases hcall

/-- **A remote object behaves as the object itself.** When every method can be told by its
    name and the arguments survive JSON, the methods of one local object have been called
    for the requests of the log in their order, with the arguments of the calls, and the
    state is the one they have led to.  Every call that has completed gives its caller the
    task that stands for what the object did at that place, with the result as JSON reads it
    back. -/
theorem transparent (s : Service Ty V) (impl : Implementation Ty V S)
    (hresolves : ∀ m ∈ s.contract.methods, s.contract.Resolves m) {ls : List (ServingLabel V)}
    (hargs : Transition.Along (Serving.step s impl) (fun _ l => s.ArgsSurvive l)
      (Serving.init s impl) ls)
    (hrun : Transition.run (Serving.step s impl) (Serving.init s impl) ls = some w) :
    ∃ entries : List (Entry s), entries.map Entry.request = w.log ∧
      w.state = replay impl.direct impl.initial entries ∧
      ∀ (i : Nat) call, w.traffic.clients.calls[i]? = some call →
        ∃ e : Entry s, e.request = call.request ∧
          ∀ c, call.completion = some c → ∃ r invocation answer, c = .result r ∧
            Answered impl.direct impl.initial entries e invocation ∧
            invocation.reply = some answer ∧
            ∀ read (cast : Ty → Option V → Except Exception (Option V)) t,
              received read cast r t = (readAnswer read answer).map (callerTask cast t) := by
  obtain ⟨hinv, hproxied⟩ := Serving.proxied_run hargs hrun
  obtain ⟨entries, hentries, hstate⟩ := hproxied.entries hinv hresolves
  exact ⟨entries, hentries, hstate,
    fun i call hcall => hproxied.completed hinv hresolves hentries hcall⟩

end Runs

section TestInterface

/-- JSON reads back every boolean that it writes. -/
theorem argsSurvive_overtaken : ∀ l ∈ overtaken, testService.ArgsSurvive l := by
  have hcall : ∀ (b : Bool) (process : Nat) (k : String),
      testService.ArgsSurvive (.execute process k 0 [some b]) := by
    intro b process k m hm
    obtain rfl : asyncBooleanMethod = m := Option.some.inj hm
    refine ⟨rfl, fun p arg hmem => ?_⟩
    obtain ⟨rfl, rfl⟩ : p = ⟨"input", "System.Boolean"⟩ ∧ arg = some b := by
      simpa [asyncBooleanMethod] using hmem
    cases b with
    | false => rfl
    | true => rfl
  intro l hl
  simp only [overtaken, List.mem_cons, List.not_mem_nil, or_false] at hl
  obtain rfl | rfl | rfl | rfl | rfl | rfl | rfl | rfl | rfl | rfl | rfl := hl
  · exact hcall true 0 "a"
  · exact hcall false 1 "b"
  all_goals trivial

/-- The first caller gets what the object returns when it is called after the second; a
    boolean comes back from JSON as it was. -/
theorem transparent_overtaken : ∃ w, Transition.run (Serving.step testService swapping)
      (Serving.init testService swapping) overtaken = some w ∧
    ∃ entries : List (Entry testService), entries.map Entry.request = w.log ∧
      replay swapping.direct false entries = true ∧
      ∃ e invocation answer, Answered swapping.direct false entries e invocation ∧
        invocation.reply = some answer ∧
        (readAnswer some answer).map (callerTask booleanCast "System.Boolean") =
          some (.ok (.completed (some false))) := by
  have hresolves : ∀ m ∈ testService.contract.methods, testService.contract.Resolves m :=
    resolves_of_flat rfl (by decide) (by decide)
  have hrun : Transition.run (Serving.step testService swapping)
      (Serving.init testService swapping) overtaken = some _ := rfl
  obtain ⟨entries, hentries, hstate, hcalls⟩ := transparent testService swapping hresolves
    (Transition.along_of_mem (fun l hl _ => argsSurvive_overtaken l hl) _) hrun
  obtain ⟨e, -, hdone⟩ := hcalls 0 _ rfl
  obtain ⟨r, invocation, answer, hr, hanswered, hanswer, hreceived⟩ := hdone _ rfl
  cases hr
  exact ⟨_, hrun, entries, hentries, hstate.symm, e, invocation, answer, hanswered, hanswer,
    (hreceived some booleanCast "System.Boolean").symm⟩

end TestInterface

end Milde.Remoting
