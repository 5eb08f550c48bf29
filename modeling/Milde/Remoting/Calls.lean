/-
  Milde.Remoting.Calls

  Any number of client processes, servers and interfaces over a network that delivers what
  was sent to anyone, in any order and any number of times.

  Sent messages stay in the network: a delivery hands a copy to some server's
  `HandleRequest` or some client's `HandleResponse`.  A request is handled by any handler,
  with any implementation.  What keeps the calls apart is the correlation id alone: the
  replies echo it, and the registries lead from an id to the one call that has it.
-/
import Milde.Common.Run
import Milde.Remoting.Client

namespace Milde.Remoting

variable {Ty V : Type}

/-- The clients, the messages sent so far, the handlers' work, and the runs of
    `HandleResponse` with their processes and responses. -/
structure Network (Ty V : Type) where
  clients : Clients V
  requests : List RemoteRequest
  handled : List (MessageHandler Ty V × RemoteRequest)
  responses : List (RemoteResponse V)
  running : List (Nat × RemoteResponse V × Stage)

/-- What happens next.  Calls, messages and runs are named by their position. -/
inductive NetworkLabel (Ty V : Type) where
  | execute (process : Nat) (correlationId methodName : String) (args : List String)
      (routingKey : String)
  | send (awaiter : Nat)
  | handleRequest (h : MessageHandler Ty V) (request : Nat)
  | deliver (process response : Nat)
  | resume (run : Nat)

namespace Network

def init : Network Ty V := ⟨Clients.empty, [], [], [], []⟩

/-- One step; `none` when the label is not enabled. -/
def step (w : Network Ty V) : NetworkLabel Ty V → Option (Network Ty V)
  | .execute process correlationId methodName args routingKey =>
      (w.clients.register process correlationId (RemoteRequest.create methodName args)
        routingKey).map fun clients => { w with clients }
  | .send awaiter =>
      match w.clients.calls[awaiter]? with
      | none => none
      | some call =>
          if call.sent then none
          else some { w with
            clients := w.clients.markSent awaiter call
            requests := w.requests ++ [call.request] }
  | .handleRequest h request =>
      (w.requests[request]?).map fun q => { w with
        handled := w.handled ++ [(h, q)]
        responses := w.responses ++ (h.handleRequest q).sent }
  | .deliver process response =>
      (w.responses[response]?).map fun r => { w with
        running := w.running ++ [(process, r, .get)] }
  | .resume run =>
      match w.running[run]? with
      | none => none
      | some (process, r, stage) =>
          (w.clients.handleResponse process r stage).map fun (clients, stage) => { w with
            clients
            running := w.running.set run (process, r, stage) }

/-- The process and the response of a step of `HandleResponse`. -/
def handling (w : Network Ty V) : NetworkLabel Ty V → Option (Nat × RemoteResponse V)
  | .deliver process response => (w.responses[response]?).map fun r => (process, r)
  | .resume run => (w.running[run]?).map fun (process, r, _) => (process, r)
  | _ => none

end Network

-- ============================================================================
-- The invariant
-- ============================================================================

/-- Every message has an origin: a request a call that has sent it, a response a handler
    that has answered a request with it, a result a response for the call. -/
structure Network.Inv (w : Network Ty V) : Prop where
  wf : w.clients.Wf
  requests : ∀ q ∈ w.requests, ∃ (i : Nat) (call : Call V), w.clients.calls[i]? = some call ∧
    call.request = q ∧ call.sent = true
  handled : ∀ p ∈ w.handled, p.2 ∈ w.requests
  responses : ∀ r ∈ w.responses, ∃ p ∈ w.handled, r ∈ (p.1.handleRequest p.2).sent
  running : ∀ t ∈ w.running, t.2.1 ∈ w.responses ∧ t.2.2.Valid w.clients t.1 t.2.1
  results : ∀ (i : Nat) call r, w.clients.calls[i]? = some call →
    call.completion = some (.result r) → r ∈ w.responses ∧ r.For call

section Network

variable {w w' : Network Ty V}

/-- The five things a step does. -/
theorem Network.step_cases {l : NetworkLabel Ty V} (h : w.step l = some w') :
    (∃ process k name args key clients, l = .execute process k name args key ∧
      w.clients.register process k (RemoteRequest.create name args) key = some clients ∧
      w' = { w with clients }) ∨
    (∃ awaiter call, l = .send awaiter ∧ w.clients.calls[awaiter]? = some call ∧
      call.sent = false ∧ w' = { w with
        clients := w.clients.markSent awaiter call
        requests := w.requests ++ [call.request] }) ∨
    (∃ handler request q, l = .handleRequest handler request ∧ w.requests[request]? = some q ∧
      w' = { w with
        handled := w.handled ++ [(handler, q)]
        responses := w.responses ++ (handler.handleRequest q).sent }) ∨
    (∃ process response r, l = .deliver process response ∧ w.responses[response]? = some r ∧
      w' = { w with running := w.running ++ [(process, r, .get)] }) ∨
    (∃ run process r stage stage' clients, l = .resume run ∧
      w.running[run]? = some (process, r, stage) ∧
      w.clients.handleResponse process r stage = some (clients, stage') ∧
      w' = { w with clients, running := w.running.set run (process, r, stage') }) := by
  cases l with
  | execute process k name args key =>
      obtain ⟨clients, hreg, rfl⟩ := Option.map_eq_some_iff.mp h
      exact Or.inl ⟨process, k, name, args, key, clients, rfl, hreg, rfl⟩
  | send awaiter =>
      simp only [Network.step] at h
      split at h
      · cases h
      · rename_i call hcall
        split at h
        · cases h
        · rename_i hnot
          cases h
          exact Or.inr (Or.inl ⟨awaiter, call, rfl, hcall, Bool.eq_false_iff.mpr hnot, rfl⟩)
  | handleRequest handler request =>
      obtain ⟨q, hq, rfl⟩ := Option.map_eq_some_iff.mp h
      exact Or.inr (Or.inr (Or.inl ⟨handler, request, q, rfl, hq, rfl⟩))
  | deliver process response =>
      obtain ⟨r, hr, rfl⟩ := Option.map_eq_some_iff.mp h
      exact Or.inr (Or.inr (Or.inr (Or.inl ⟨process, response, r, rfl, hr, rfl⟩)))
  | resume run =>
      simp only [Network.step] at h
      split at h
      · cases h
      · rename_i process r stage hrun
        obtain ⟨⟨clients, stage'⟩, hhandle, rfl⟩ := Option.map_eq_some_iff.mp h
        exact Or.inr (Or.inr (Or.inr (Or.inr
          ⟨run, process, r, stage, stage', clients, rfl, hrun, hhandle, rfl⟩)))

/-- Where the clients of the next state come from. -/
theorem Network.step_clients (h : w.clients.Wf)
    (hrunning : ∀ t ∈ w.running, t.2.2.Valid w.clients t.1 t.2.1) {l : NetworkLabel Ty V}
    (hstep : w.step l = some w') : w'.clients.Wf ∧ w.clients.Later w'.clients := by
  rcases Network.step_cases hstep with
    ⟨process, k, name, args, key, clients, -, hreg, rfl⟩ | ⟨awaiter, call, -, hcall, -, rfl⟩ |
    ⟨handler, request, q, -, -, rfl⟩ | ⟨process, response, r, -, -, rfl⟩ |
    ⟨run, process, r, stage, stage', clients, -, hrun, hhandle, rfl⟩
  · obtain ⟨hwf, hlater, -⟩ := Clients.register_spec h (Option.some_ne_none _) hreg
    exact ⟨hwf, hlater⟩
  · exact Clients.markSent_spec h hcall
  · exact ⟨h, Clients.Later.refl _⟩
  · exact ⟨h, Clients.Later.refl _⟩
  · have hvalid := hrunning _ (List.mem_of_getElem? hrun)
    obtain ⟨hwf, hlater, -⟩ := Clients.handleResponse_spec h hvalid hhandle
    exact ⟨hwf, hlater⟩

/-- Messages keep their origin while the clients move on. -/
theorem Network.Inv.requests_later (h : w.Inv) {clients : Clients V}
    (hlater : w.clients.Later clients) {q : RemoteRequest} (hq : q ∈ w.requests) :
    ∃ (i : Nat) (call : Call V), clients.calls[i]? = some call ∧ call.request = q ∧
      call.sent = true := by
  obtain ⟨i, call, hcall, rfl, hsent⟩ := h.requests q hq
  obtain ⟨call', hcall', -, -, hreq, hsent', -⟩ := hlater i call hcall
  exact ⟨i, call', hcall', hreq, hsent' hsent⟩

/-- A new call has no result yet. -/
theorem Network.Inv.execute (h : w.Inv) {process : Nat} {k key : String} {request : RemoteRequest}
    {clients : Clients V} (hheaders : request.headers ≠ none)
    (hreg : w.clients.register process k request key = some clients) :
    Network.Inv { w with clients } := by
  obtain ⟨hwf, hlater, hcalls⟩ := Clients.register_spec h.wf hheaders hreg
  refine ⟨hwf, fun q hq => h.requests_later hlater hq, h.handled, h.responses,
    fun t ht => ⟨(h.running t ht).1, (h.running t ht).2.later hlater⟩, ?_⟩
  intro i call r hcall hres
  have hcall : clients.calls[i]? = some call := hcall
  rw [hcalls] at hcall
  rcases List.getElem?_append_singleton hcall with hcall | ⟨-, rfl⟩
  · exact h.results i call r hcall hres
  · cases hres

/-- The request that is sent has its origin in the call that sends it. -/
theorem Network.Inv.send (h : w.Inv) {awaiter : Nat} {call : Call V}
    (hcall : w.clients.calls[awaiter]? = some call) :
    Network.Inv { w with
      clients := w.clients.markSent awaiter call
      requests := w.requests ++ [call.request] } := by
  obtain ⟨hwf, hlater⟩ := Clients.markSent_spec h.wf hcall
  have hself : (w.clients.calls.set awaiter { call with sent := true })[awaiter]? =
      some { call with sent := true } :=
    List.getElem?_set_self (List.getElem?_eq_some_iff.mp hcall).1
  refine ⟨hwf, ?_, ?_, h.responses,
    fun t ht => ⟨(h.running t ht).1, (h.running t ht).2.later hlater⟩, ?_⟩
  · intro q hq
    rcases List.mem_append.mp hq with hq | hq
    · exact h.requests_later hlater hq
    · rw [List.mem_singleton.mp hq]
      exact ⟨awaiter, _, hself, rfl, rfl⟩
  · exact fun p hp => List.mem_append_left _ (h.handled p hp)
  · intro i other r hother hres
    rcases List.getElem?_set_cases hother with ⟨rfl, rfl⟩ | ⟨-, hother⟩
    · exact h.results awaiter call r hcall hres
    · exact h.results i other r hother hres

/-- The replies have their origin in the request that was handled. -/
theorem Network.Inv.handleRequest (h : w.Inv) (handler : MessageHandler Ty V) {q : RemoteRequest}
    (hq : q ∈ w.requests) :
    Network.Inv { w with
      handled := w.handled ++ [(handler, q)]
      responses := w.responses ++ (handler.handleRequest q).sent } := by
  have hold : ∀ r ∈ w.responses, r ∈ w.responses ++ (handler.handleRequest q).sent :=
    fun r hr => List.mem_append_left _ hr
  refine ⟨h.wf, h.requests, ?_, ?_,
    fun t ht => ⟨hold _ (h.running t ht).1, (h.running t ht).2⟩,
    fun i call r hcall hres => ⟨hold r (h.results i call r hcall hres).1,
      (h.results i call r hcall hres).2⟩⟩
  · intro p hp
    rcases List.mem_append.mp hp with hp | hp
    · exact h.handled p hp
    · rw [List.mem_singleton.mp hp]
      exact hq
  · intro r hr
    rcases List.mem_append.mp hr with hr | hr
    · obtain ⟨p, hp, hmem⟩ := h.responses r hr
      exact ⟨p, List.mem_append_left _ hp, hmem⟩
    · exact ⟨(handler, q), List.mem_append_right _ (List.mem_singleton_self _), hr⟩

theorem Network.Inv.deliver (h : w.Inv) (process : Nat) {r : RemoteResponse V}
    (hr : r ∈ w.responses) :
    Network.Inv { w with running := w.running ++ [(process, r, .get)] } := by
  refine ⟨h.wf, h.requests, h.handled, h.responses, ?_, h.results⟩
  intro t ht
  rcases List.mem_append.mp ht with ht | ht
  · exact h.running t ht
  · rw [List.mem_singleton.mp ht]
    exact ⟨hr, trivial⟩

/-- A step of `HandleResponse` completes a call with the response it handles, if any. -/
theorem Network.Inv.resume (h : w.Inv) {run process : Nat} {r : RemoteResponse V}
    {stage stage' : Stage} {clients : Clients V}
    (hrun : w.running[run]? = some (process, r, stage))
    (hhandle : w.clients.handleResponse process r stage = some (clients, stage')) :
    Network.Inv { w with
      clients
      running := w.running.set run (process, r, stage') } := by
  obtain ⟨hr, hvalid⟩ := h.running _ (List.mem_of_getElem? hrun)
  obtain ⟨hwf, hlater, hvalid'⟩ := Clients.handleResponse_spec h.wf hvalid hhandle
  refine ⟨hwf, fun q hq => h.requests_later hlater hq, h.handled, h.responses, ?_, ?_⟩
  · intro t ht
    rcases List.mem_or_eq_of_mem_set ht with ht | rfl
    · exact ⟨(h.running t ht).1, (h.running t ht).2.later hlater⟩
    · exact ⟨hr, hvalid'⟩
  · intro i call r' hcall hres
    obtain ⟨old, hold, hk, -, -, hc⟩ := Clients.handleResponse_calls h.wf hvalid hhandle hcall
    rcases hc _ hres with hold_res | ⟨heq, hfor⟩
    · obtain ⟨hmem, hold_for⟩ := h.results i old r' hold hold_res
      refine ⟨hmem, ?_⟩
      show r'.headers.correlationId = some call.correlationId
      rw [hk]
      exact hold_for
    · obtain rfl : r' = r := Completion.result.inj heq
      exact ⟨hr, hfor⟩

theorem Network.Inv.step (h : w.Inv) {l : NetworkLabel Ty V} (hstep : w.step l = some w') :
    w'.Inv := by
  rcases Network.step_cases hstep with
    ⟨process, k, name, args, key, clients, -, hreg, rfl⟩ | ⟨awaiter, call, -, hcall, -, rfl⟩ |
    ⟨handler, request, q, -, hq, rfl⟩ | ⟨process, response, r, -, hr, rfl⟩ |
    ⟨run, process, r, stage, stage', clients, -, hrun, hhandle, rfl⟩
  · exact h.execute (Option.some_ne_none _) hreg
  · exact h.send hcall
  · exact h.handleRequest handler (List.mem_of_getElem? hq)
  · exact h.deliver process (List.mem_of_getElem? hr)
  · exact h.resume hrun hhandle

theorem Network.inv_init : (Network.init : Network Ty V).Inv where
  wf := Clients.wf_empty
  requests _ h := by cases h
  handled _ h := by cases h
  responses _ h := by cases h
  running _ h := by cases h
  results _ _ _ h := by cases h

theorem Network.inv_reachable (h : Transition.Reachable Network.step Network.init w) : w.Inv :=
  h.invariant Network.inv_init fun _ _ _ h hstep => h.step hstep

/-- What has completed stays completed, with what it completed with. -/
theorem Network.Inv.later_run (h : w.Inv) {ls : List (NetworkLabel Ty V)}
    (hrun : Transition.run Network.step w ls = some w') : w.clients.Later w'.clients := by
  have hboth : w'.Inv ∧ w.clients.Later w'.clients := by
    refine Transition.run_invariant (I := fun v : Network Ty V => v.Inv ∧
      w.clients.Later v.clients) ?_ ⟨h, Clients.Later.refl _⟩ hrun
    rintro v l v' ⟨hv, hlater⟩ hstep
    have hnext := (Network.step_clients hv.wf (fun t ht => (hv.running t ht).2) hstep).2
    exact ⟨hv.step hstep, hlater.trans hnext⟩
  exact hboth.2

/-- A result is an answer to the request of its call. -/
theorem Network.Inv.result_answers (h : w.Inv) {awaiter : Nat} {call : Call V}
    {r : RemoteResponse V} (hcall : w.clients.calls[awaiter]? = some call)
    (hres : call.completion = some (.result r)) :
    call.sent = true ∧ ∃ handler, (handler, call.request) ∈ w.handled ∧
      r ∈ (handler.handleRequest call.request).sent := by
  obtain ⟨hr, hfor⟩ := h.results awaiter call r hcall hres
  obtain ⟨⟨handler, q⟩, hp, hsent⟩ := h.responses r hr
  obtain ⟨i, other, hother, rfl, hflag⟩ := h.requests q (h.handled _ hp)
  -- the request that was answered has the id of the response, so it is the call's
  obtain ⟨headers, hheaders, hecho, -⟩ := mem_handleRequest_sent hsent
  obtain ⟨headers', hheaders', hid⟩ := h.wf.addressed i other hother
  obtain rfl : headers' = headers := Option.some.inj (hheaders'.symm.trans hheaders)
  have heq : other.correlationId = call.correlationId :=
    Option.some.inj (hid.symm.trans (hecho.symm.trans hfor))
  obtain rfl : i = awaiter := h.wf.distinct i awaiter other call hother hcall heq
  obtain rfl : call = other := Option.some.inj (hcall.symm.trans hother)
  exact ⟨hflag, handler, hp, hsent⟩

/-- **No call completes with another call's answer.** In every reachable state a result is
    a reply that some handler sent while it handled the request of this very call; from
    then on the call keeps it; and a step of `HandleResponse` leaves every other call and
    its registration alone. -/
theorem own_answer (hreach : Transition.Reachable Network.step Network.init w) :
    (∀ (awaiter : Nat) call r, w.clients.calls[awaiter]? = some call →
      call.completion = some (.result r) →
        call.sent = true ∧
        (∃ handler, (handler, call.request) ∈ w.handled ∧
          r ∈ (handler.handleRequest call.request).sent) ∧
        ∀ (i : Nat) other, w.clients.calls[i]? = some other → other.request = call.request →
          i = awaiter) ∧
    (∀ ls w', Transition.run Network.step w ls = some w' →
      ∀ (awaiter : Nat) call c, w.clients.calls[awaiter]? = some call → call.completion = some c →
        ∃ call', w'.clients.calls[awaiter]? = some call' ∧ call'.completion = some c) ∧
    (∀ l w' process r, w.step l = some w' → w.handling l = some (process, r) →
      ∀ (i : Nat) other, w.clients.calls[i]? = some other →
        ¬ (other.process = process ∧ r.For other) →
          w'.clients.calls[i]? = some other ∧
            w'.clients.registry other.process other.correlationId =
              w.clients.registry other.process other.correlationId) := by
  have h := Network.inv_reachable hreach
  refine ⟨?_, ?_, ?_⟩
  · intro awaiter call r hcall hres
    obtain ⟨hsent, hhandled⟩ := h.result_answers hcall hres
    refine ⟨hsent, hhandled, fun i other hother hsame => ?_⟩
    -- one request, one id, one call
    obtain ⟨headers, hheaders, hid⟩ := h.wf.addressed awaiter call hcall
    obtain ⟨headers', hheaders', hid'⟩ := h.wf.addressed i other hother
    rw [hsame, hheaders, Option.some.injEq] at hheaders'
    subst hheaders'
    exact h.wf.distinct i awaiter other call hother hcall
      (Option.some.inj (hid'.symm.trans hid))
  · intro ls w' hrun awaiter call c hcall hcomp
    obtain ⟨call', hcall', -, -, -, -, hc⟩ := h.later_run hrun awaiter call hcall
    exact ⟨call', hcall', hc c hcomp⟩
  · intro l w' process r hstep hhandling i other hother hne
    rcases Network.step_cases hstep with
      ⟨process', k, name, args, key, clients, rfl, -, -⟩ | ⟨awaiter, call, rfl, -, -, -⟩ |
      ⟨handler, request, q, rfl, -, -⟩ | ⟨process', response, r', rfl, -, rfl⟩ |
      ⟨run, process', r', stage, stage', clients, rfl, hrun, hhandle, rfl⟩
    · cases hhandling
    · cases hhandling
    · cases hhandling
    · exact ⟨hother, rfl⟩
    · simp only [Network.handling, hrun, Option.map_some, Option.some.injEq,
        Prod.mk.injEq] at hhandling
      obtain ⟨rfl, rfl⟩ := hhandling
      obtain ⟨-, hvalid⟩ := h.running _ (List.mem_of_getElem? hrun)
      exact Clients.handleResponse_frame h.wf hvalid hhandle hother hne

end Network

section TestInterface

/-- One call of `AsyncBooleanMethod(true)`, answered, its answer delivered twice. -/
def answeredTwice : List (NetworkLabel String Bool) :=
  [.execute 0 "c" "AsyncBooleanMethod" ["true"] "ITestInterface.AsyncBooleanMethod", .send 0,
    .handleRequest
      (booleanHandler testInterface fun _ _ => .returned (some (.completed (some true)))) 0,
    .deliver 0 0, .deliver 0 0, .resume 0, .resume 1, .resume 0, .resume 1, .resume 1, .resume 0]

def answeredTwiceEnd : Network String Bool :=
  (Transition.run Network.step Network.init answeredTwice).getD Network.init

/-- The second delivery finds the call completed; its run ends with an exception. -/
theorem own_answer_answeredTwice :
    Transition.run Network.step Network.init answeredTwice = some answeredTwiceEnd ∧
    answeredTwiceEnd.running.map (fun t => t.2.2) =
      [.ended (some true), .remove 0 true] ∧
    ∃ call r, answeredTwiceEnd.clients.calls[0]? = some call ∧
      call.completion = some (.result r) ∧ r.response = some true ∧
      ∃ handler, (handler, call.request) ∈ answeredTwiceEnd.handled ∧
        r ∈ (handler.handleRequest call.request).sent := by
  have hrun : Transition.run Network.step Network.init answeredTwice = some answeredTwiceEnd := rfl
  exact ⟨hrun, rfl, _, _, rfl, rfl, rfl, ((own_answer ⟨_, hrun⟩).1 0 _ _ rfl rfl).2.1⟩

end TestInterface

end Milde.Remoting
