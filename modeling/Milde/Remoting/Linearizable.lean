/-
  Milde.Remoting.Linearizable

  A service with state behind RabbitMQ, as its clients see it.

  The handler runs the implementation for one request at a time, in whatever order the
  broker hands the requests out.  `log` lists the requests that the handler has run for.
  Every call that completes has the answer that the service gives at the request's place
  in the log, however requests and responses overtake each other, and a call that starts
  after another has completed comes after it in the log (`linearizable`).

  Nothing is assumed about which client gets a response: one that goes astray is an answer
  that nobody gets (Milde.Remoting.NoneLost), never a wrong one.
-/
import Milde.Common.SequentialLog
import Milde.Remoting.NoneLost

namespace Milde.Remoting

open TopicExchange SequentialLog

variable {Ty V S : Type}

/-- An implementation with state: what a method does and the state that it leaves. -/
structure Implementation (Ty V S : Type) where
  initial : S
  call : S → MethodInfo Ty → List (Option V) → Invocation V × S

namespace Implementation

/-- What the methods do in a state. -/
def invocation (impl : Implementation Ty V S) (state : S) (m : MethodInfo Ty)
    (args : List (Option V)) : Invocation V :=
  (impl.call state m args).1

/-- One run of the handler: the state that its invocations leave, and what it sends. -/
def serve (impl : Implementation Ty V S) (s : Service Ty V) (state : S) (q : RemoteRequest) :
    S × List (RemoteResponse V) :=
  let handled := (s.handler (impl.invocation state)).handleRequest q
  (handled.invoked.foldl (fun state c => (impl.call state c.1 c.2).2) state, handled.sent)

end Implementation

/-- The traffic, the state of the implementation, and the requests it was run for. -/
structure Serving (V S : Type) where
  traffic : Traffic V
  state : S
  log : List RemoteRequest

/-- The steps of the traffic; what the implementation does is up to its state. -/
inductive ServingLabel (V : Type) where
  | execute (process : Nat) (correlationId : String) (method : Nat) (args : List (Option V))
  | send (awaiter : Nat)
  | deliverRequest (n : Nat)
  | deliverResponse (process n : Nat)
  | handleRequest (delivery : Nat)
  | handleResponse (delivery : Nat)

/-- The step of the traffic. -/
def ServingLabel.toTraffic (implementation : MethodInfo Ty → List (Option V) → Invocation V) :
    ServingLabel V → TrafficLabel Ty V
  | .execute process correlationId method args => .execute process correlationId method args
  | .send awaiter => .send awaiter
  | .deliverRequest n => .deliverRequest n
  | .deliverResponse process n => .deliverResponse process n
  | .handleRequest delivery => .handleRequest delivery implementation
  | .handleResponse delivery => .handleResponse delivery

namespace Serving

def init (s : Service Ty V) (impl : Implementation Ty V S) : Serving V S where
  traffic := Traffic.init s
  state := impl.initial
  log := []

/-- The request that a step runs the handler for. -/
def served (w : Serving V S) : ServingLabel V → Option RemoteRequest
  | .handleRequest delivery =>
      match w.traffic.deliveries[delivery]? with
      | some (.request q none) => some q
      | _ => none
  | _ => none

/-- One step; `none` when the label is not enabled. -/
def step (s : Service Ty V) (impl : Implementation Ty V S) (w : Serving V S)
    (l : ServingLabel V) : Option (Serving V S) :=
  (w.traffic.step s (l.toTraffic (impl.invocation w.state))).map fun traffic =>
    match w.served l with
    | none => { w with traffic }
    | some q => ⟨traffic, (impl.serve s w.state q).1, w.log ++ [q]⟩

/-- A call has sent the request. -/
def HasSent (w : Serving V S) (q : RemoteRequest) : Prop :=
  ∃ (i : Nat) (call : Call V), w.traffic.clients.calls[i]? = some call ∧ call.request = q ∧
    call.sent = true

end Serving

/-- The delivery holds a request with the id, whose handler has not run. -/
def Delivery.asksFor (k : String) : Delivery V → Bool
  | .request q none => Message.isOf k (.request q : Message V)
  | _ => false

namespace Serving

/-- How often the request of a call is waiting, delivered or served. -/
def requests (s : Service Ty V) (w : Serving V S) (k : String) : Nat :=
  (w.traffic.broker.queues (listenerQueue requestExchange s.name)).countP (Message.isOf k) +
    w.traffic.deliveries.countP (Delivery.asksFor k) +
    w.log.countP fun q => Message.isOf k (.request q : Message V)

/-- The response is what the service sent for a request of its log. -/
def Replied (s : Service Ty V) (impl : Implementation Ty V S) (w : Serving V S)
    (r : RemoteResponse V) : Prop :=
  ∃ q, Answered (impl.serve s) impl.initial w.log q [r] ∧ r.Echoes q

/-- The state is the one that the log leads to; requests are those of calls that have sent
    them, each once; responses are replies. -/
structure Inv (s : Service Ty V) (impl : Implementation Ty V S) (w : Serving V S) : Prop where
  wf : w.traffic.clients.Wf
  bindings : w.traffic.broker.bindings = (Traffic.init s).broker.bindings
  state : w.state = replay (impl.serve s) impl.initial w.log
  waiting : ∀ queue q, .request q ∈ w.traffic.broker.queues queue → w.HasSent q
  asking : ∀ q acknowledged, .request q acknowledged ∈ w.traffic.deliveries → w.HasSent q
  logged : ∀ q ∈ w.log, w.HasSent q
  once : ∀ k, w.requests s k ≤ w.traffic.clients.sentOf k
  valid : ∀ process r stage, .response process r stage ∈ w.traffic.deliveries →
    stage.Valid w.traffic.clients process r
  queued : ∀ queue r, .response r ∈ w.traffic.broker.queues queue → w.Replied s impl r
  delivered : ∀ process r stage, .response process r stage ∈ w.traffic.deliveries →
    w.Replied s impl r
  completed : ∀ (i : Nat) call c, w.traffic.clients.calls[i]? = some call →
    call.completion = some c → ∃ r, c = .result r ∧ r.For call ∧ w.Replied s impl r

end Serving

-- ============================================================================
-- What each step keeps
-- ============================================================================

section Steps

variable {s : Service Ty V} {impl : Implementation Ty V S} {w w' : Serving V S}
  {l : ServingLabel V}

/-- A step of the traffic, after which the state and the log are as `served` says. -/
theorem Serving.step_eq_some (h : w.step s impl l = some w') :
    ∃ traffic, w.traffic.step s (l.toTraffic (impl.invocation w.state)) = some traffic ∧
      (w.served l = none ∧ w' = { w with traffic } ∨
        ∃ q, w.served l = some q ∧
          w' = ⟨traffic, (impl.serve s w.state q).1, w.log ++ [q]⟩) := by
  obtain ⟨traffic, htraffic, rfl⟩ := Option.map_eq_some_iff.mp h
  refine ⟨traffic, htraffic, ?_⟩
  cases hserved : w.served l with
  | none => exact Or.inl ⟨rfl, rfl⟩
  | some q => exact Or.inr ⟨q, rfl, rfl⟩

/-- Requests stay sent while time passes. -/
theorem Serving.HasSent.later {q : RemoteRequest} (h : w.HasSent q)
    (hlater : w.traffic.clients.Later w'.traffic.clients) : w'.HasSent q := by
  obtain ⟨i, call, hcall, rfl, hsent⟩ := h
  obtain ⟨call', hcall', -, -, hreq, hsent', -⟩ := hlater i call hcall
  exact ⟨i, call', hcall', hreq, hsent' hsent⟩

theorem Serving.Replied.later {r : RemoteResponse V} (h : w.Replied s impl r)
    {later : List RemoteRequest} (hlog : w'.log = w.log ++ later) : w'.Replied s impl r := by
  obtain ⟨q, hanswered, hechoes⟩ := h
  refine ⟨q, ?_, hechoes⟩
  rw [hlog]
  exact hanswered.append later

/-- What the handler sends for a request with headers is one reply or none. -/
theorem Service.handler_sent {implementation : MethodInfo Ty → List (Option V) → Invocation V}
    {q : RemoteRequest} (hheaders : q.headers ≠ none) :
    ((s.handler implementation).handleRequest q).sent = [] ∨
      ∃ r, ((s.handler implementation).handleRequest q).sent = [r] := by
  obtain ⟨headers, hheaders⟩ := Option.ne_none_iff_exists'.mp hheaders
  by_cases hempty : (s.handler implementation).ThrowsEmpty q
  · exact Or.inl (sent_of_throwsEmpty hempty)
  · obtain ⟨r, hsent, -⟩ := handleRequest_answers hheaders (fun _ => rfl) hempty
    exact Or.inr ⟨r, hsent⟩

/-- A new call has not sent its request. -/
theorem Serving.Inv.execute (h : w.Inv s impl) {process : Nat} {k key : String}
    {request : RemoteRequest} {clients : Clients V} (hheaders : request.headers ≠ none)
    (hreg : w.traffic.clients.register process k request key = some clients) :
    Serving.Inv s impl { w with traffic := { w.traffic with clients } } := by
  obtain ⟨hwf, hlater, hcalls⟩ := Clients.register_spec h.wf hheaders hreg
  have hsent : ∀ q, w.HasSent q → HasSent { w with traffic := { w.traffic with clients } } q :=
    fun q hq => hq.later hlater
  refine ⟨hwf, h.bindings, h.state, fun queue q hq => hsent q (h.waiting queue q hq),
    fun q a hq => hsent q (h.asking q a hq), fun q hq => hsent q (h.logged q hq), fun k => ?_,
    fun p r stage hd => (h.valid p r stage hd).later hlater, h.queued, h.delivered, ?_⟩
  · have hsame : clients.sentOf k = w.traffic.clients.sentOf k := by
      rw [Clients.sentOf, hcalls, List.countP_append, List.countP_singleton]
      rfl
    show w.requests s k ≤ clients.sentOf k
    rw [hsame]
    exact h.once k
  · intro i call c hcall hdone
    have hcall : clients.calls[i]? = some call := hcall
    rw [hcalls] at hcall
    rcases List.getElem?_append_singleton hcall with hcall | ⟨-, rfl⟩
    · exact h.completed i call c hcall hdone
    · cases hdone

/-- The request that is sent is the first of its call. -/
theorem Serving.Inv.send (h : w.Inv s impl) {awaiter : Nat} {call : Call V}
    (hcall : w.traffic.clients.calls[awaiter]? = some call) (hunsent : call.sent = false) :
    Serving.Inv s impl { w with traffic := { w.traffic with
      clients := w.traffic.clients.markSent awaiter call
      broker := rabbitSend w.traffic.broker requestExchange (call.request.headers.getD {})
        (.request call.request) } } := by
  obtain ⟨hwf, hlater⟩ := Clients.markSent_spec h.wf hcall
  have hid := h.wf.request_id hcall
  have hself := List.getElem?_set_self (l := w.traffic.clients.calls)
    (a := { call with sent := true }) (List.getElem?_eq_some_iff.mp hcall).1
  refine ⟨hwf, h.bindings, h.state, ?_, fun q a hq => (h.asking q a hq).later hlater,
    fun q hq => (h.logged q hq).later hlater, fun k => ?_,
    fun p r stage hd => (h.valid p r stage hd).later hlater, ?_, h.delivered, ?_⟩
  · intro queue q hq
    rcases Broker.mem_publish.mp hq with hq | ⟨-, hq⟩
    · exact (h.waiting queue q hq).later hlater
    · cases hq
      exact ⟨awaiter, _, hself, rfl, rfl⟩
  · have hsent := List.countP_set_add
      (p := fun c : Call V => c.sent && decide (c.correlationId = k))
      { call with sent := true } hcall
    simp only [hunsent, Bool.false_and, Bool.false_eq_true, if_false, Bool.true_and] at hsent
    have hqueue : ((rabbitSend w.traffic.broker requestExchange (call.request.headers.getD {})
        (.request call.request)).queues (listenerQueue requestExchange s.name)).countP
          (Message.isOf k) ≤
        (w.traffic.broker.queues (listenerQueue requestExchange s.name)).countP (Message.isOf k) +
          (if Message.isOf k (.request call.request : Message V) then 1 else 0) :=
      Broker.countP_publish_le _
    have hisOf : Message.isOf k (.request call.request : Message V) =
        decide (call.correlationId = k) := by
      simp only [Message.isOf, Message.correlationId, hid, Option.some.injEq]
    have hold := h.once k
    rw [hisOf] at hqueue
    simp only [requests, Clients.sentOf, Clients.markSent] at hold ⊢
    omega
  · intro queue r hr
    rcases Broker.mem_publish.mp hr with hr | ⟨-, hr⟩
    · exact h.queued queue r hr
    · cases hr
  · intro i other c hother hdone
    rcases List.getElem?_set_cases hother with ⟨rfl, rfl⟩ | ⟨-, hother⟩
    · exact h.completed awaiter call c hcall hdone
    · exact h.completed i other c hother hdone

/-- A request is waiting or delivered. -/
theorem Serving.Inv.deliverRequest (h : w.Inv s impl) {n : Nat} {q : RemoteRequest}
    {broker : Broker (Message V)} (htake : w.traffic.broker.take
      (listenerQueue requestExchange s.name) n = some (.request q, broker)) :
    Serving.Inv s impl { w with traffic := { w.traffic with
      broker
      deliveries := w.traffic.deliveries ++ [.request q none] } } := by
  obtain ⟨hq, hback⟩ := Broker.mem_of_take htake
  refine ⟨h.wf, (Broker.take_bindings htake).trans h.bindings, h.state,
    fun queue q' hq' => h.waiting queue q' (hback queue _ hq'), ?_, h.logged, fun k => ?_, ?_,
    fun queue r hr => h.queued queue r (hback queue _ hr), ?_, h.completed⟩
  · intro q' a hd
    rcases List.mem_append.mp hd with hd | hd
    · exact h.asking q' a hd
    · cases List.mem_singleton.mp hd
      exact h.waiting _ q hq
  · have htaken := Broker.countP_take (Message.isOf k) htake
    have hheld : Delivery.asksFor k (.request q none : Delivery V) =
        Message.isOf k (.request q) := rfl
    have hold := h.once k
    simp only [requests, List.countP_append, List.countP_singleton, hheld] at hold ⊢
    omega
  · intro process r stage hd
    rcases List.mem_append.mp hd with hd | hd
    · exact h.valid process r stage hd
    · cases List.mem_singleton.mp hd
  · intro process r stage hd
    rcases List.mem_append.mp hd with hd | hd
    · exact h.delivered process r stage hd
    · cases List.mem_singleton.mp hd

/-- Whoever gets a response, it is a reply. -/
theorem Serving.Inv.deliverResponse (h : w.Inv s impl) {process n : Nat} {r : RemoteResponse V}
    {broker : Broker (Message V)} (htake : w.traffic.broker.take
      (listenerQueue responseExchange s.name) n = some (.response r, broker)) :
    Serving.Inv s impl { w with traffic := { w.traffic with
      broker
      deliveries := w.traffic.deliveries ++ [.response process r .get] } } := by
  obtain ⟨hr, hback⟩ := Broker.mem_of_take htake
  refine ⟨h.wf, (Broker.take_bindings htake).trans h.bindings, h.state,
    fun queue q hq => h.waiting queue q (hback queue _ hq), ?_, h.logged, fun k => ?_, ?_,
    fun queue r hr => h.queued queue r (hback queue _ hr), ?_, h.completed⟩
  · intro q a hd
    rcases List.mem_append.mp hd with hd | hd
    · exact h.asking q a hd
    · cases List.mem_singleton.mp hd
  · have hold := h.once k
    simp only [requests, List.countP_append, List.countP_singleton, Delivery.asksFor,
      Broker.queues_take_of_ne htake (listenerQueue_ne requestExchange_ne)] at hold ⊢
    exact hold
  · intro process' r' stage hd
    rcases List.mem_append.mp hd with hd | hd
    · exact h.valid process' r' stage hd
    · cases List.mem_singleton.mp hd
      trivial
  · intro process' r' stage hd
    rcases List.mem_append.mp hd with hd | hd
    · exact h.delivered process' r' stage hd
    · cases List.mem_singleton.mp hd
      exact h.queued _ r hr

/-- The handler runs: its request goes from the deliveries to the log, the state is the
    next one, and what it sends is the reply. -/
theorem Serving.Inv.handleRequest (h : w.Inv s impl) {delivery : Nat} {q : RemoteRequest}
    (hd : w.traffic.deliveries[delivery]? = some (.request q none)) (acknowledged : Bool) :
    Serving.Inv s impl ⟨{ w.traffic with
        broker := (impl.serve s w.state q).2.foldl (fun broker r =>
          rabbitSend broker responseExchange r.headers (.response r)) w.traffic.broker
        deliveries := w.traffic.deliveries.set delivery (.request q (some acknowledged)) },
      (impl.serve s w.state q).1, w.log ++ [q]⟩ := by
  have hsends := h.asking q none (List.mem_of_getElem? hd)
  obtain ⟨j, asker, hasker, hreq, -⟩ := hsends
  have hheaders : q.headers ≠ none := by
    obtain ⟨headers, hheaders, -⟩ := h.wf.addressed j asker hasker
    rw [← hreq, hheaders]
    exact Option.some_ne_none _
  have hanswered : Answered (impl.serve s) impl.initial (w.log ++ [q]) q
      (impl.serve s (replay (impl.serve s) impl.initial w.log) q).2 := answered_last
  rw [← h.state] at hanswered
  -- the reply, if there is one, is the only new message
  have hreply : (impl.serve s w.state q).2 = [] ∨ ∃ r, (impl.serve s w.state q).2 = [r] :=
    Service.handler_sent hheaders
  have hset : ∀ d, d ∈ w.traffic.deliveries.set delivery (.request q (some acknowledged)) →
      d ∈ w.traffic.deliveries ∨ d = .request q (some acknowledged) :=
    fun d hmem => List.mem_or_eq_of_mem_set hmem
  have hold : ∀ r, w.Replied s impl r → Serving.Replied s impl ⟨w.traffic,
      (impl.serve s w.state q).1, w.log ++ [q]⟩ r := fun r hr => hr.later rfl
  refine ⟨h.wf, (bindings_replies _ _).trans h.bindings, ?_, ?_, ?_, ?_, fun k => ?_, ?_, ?_, ?_,
    ?_⟩
  · show (impl.serve s w.state q).1 = replay (impl.serve s) impl.initial (w.log ++ [q])
    rw [replay_append_singleton, ← h.state]
  · intro queue q' hq'
    rcases (queues_replies _).2 hq' with hq' | ⟨r, hr⟩
    · exact h.waiting queue q' hq'
    · cases hr
  · intro q' a hmem
    rcases hset _ hmem with hmem | heq
    · exact h.asking q' a hmem
    · cases heq
      exact h.asking q none (List.mem_of_getElem? hd)
  · intro q' hmem
    rcases List.mem_append.mp hmem with hmem | hmem
    · exact h.logged q' hmem
    · rw [List.mem_singleton.mp hmem]
      exact h.asking q none (List.mem_of_getElem? hd)
  · have hcount := List.countP_set_add (p := Delivery.asksFor k)
      (.request q (some acknowledged)) hd
    have hqueue : (((impl.serve s w.state q).2.foldl (fun broker r =>
        rabbitSend broker responseExchange r.headers (.response r)) w.traffic.broker).queues
          (listenerQueue requestExchange s.name)) =
        w.traffic.broker.queues (listenerQueue requestExchange s.name) := by
      rcases hreply with hnone | ⟨r, hone⟩
      · rw [hnone]
        rfl
      · rw [hone]
        exact queues_rabbitSend_of_ne h.bindings requestExchange_ne.symm _ _
    have husedUp : Delivery.asksFor k (.request q (some acknowledged) : Delivery V) = false := rfl
    have hheld : Delivery.asksFor k (.request q none : Delivery V) =
        Message.isOf k (.request q) := rfl
    have hbefore := h.once k
    rw [husedUp, hheld, if_neg Bool.false_ne_true] at hcount
    simp only [requests, hqueue, List.countP_append, List.countP_singleton] at hbefore ⊢
    omega
  · intro process r stage hmem
    rcases hset _ hmem with hmem | heq
    · exact h.valid process r stage hmem
    · cases heq
  · intro queue r hr
    rcases hreply with hnone | ⟨reply, hone⟩
    · rw [hnone] at hr
      exact hold r (h.queued queue r hr)
    · have hecho : reply.Echoes q := by
        apply mem_handleRequest_sent (h := s.handler (impl.invocation w.state))
        show reply ∈ (impl.serve s w.state q).2
        rw [hone]
        exact List.mem_singleton_self reply
      rw [hone] at hr hanswered
      rcases Broker.mem_publish.mp hr with hr | ⟨-, hr⟩
      · exact hold r (h.queued queue r hr)
      · cases hr
        exact ⟨q, hanswered, hecho⟩
  · intro process r stage hmem
    rcases hset _ hmem with hmem | heq
    · exact hold r (h.delivered process r stage hmem)
    · cases heq
  · intro i call c hcall hdone
    obtain ⟨r, hc, hfor, hr⟩ := h.completed i call c hcall hdone
    exact ⟨r, hc, hfor, hold r hr⟩

/-- A run of `HandleResponse` completes a call with the reply that it has. -/
theorem Serving.Inv.handleResponse (h : w.Inv s impl) {delivery process : Nat}
    {r : RemoteResponse V} {stage stage' : Stage} {clients : Clients V}
    (hd : w.traffic.deliveries[delivery]? = some (.response process r stage))
    (hhandle : w.traffic.clients.handleResponse process r stage = some (clients, stage')) :
    Serving.Inv s impl { w with traffic := { w.traffic with
      clients
      deliveries := w.traffic.deliveries.set delivery (.response process r stage') } } := by
  have hvalid := h.valid process r stage (List.mem_of_getElem? hd)
  have hreplied := h.delivered process r stage (List.mem_of_getElem? hd)
  obtain ⟨hwf, hlater, hvalid'⟩ := Clients.handleResponse_spec h.wf hvalid hhandle
  refine ⟨hwf, h.bindings, h.state, fun queue q hq => (h.waiting queue q hq).later hlater, ?_,
    fun q hq => (h.logged q hq).later hlater, fun k => ?_, ?_, h.queued, ?_, ?_⟩
  · intro q a hmem
    rcases List.mem_or_eq_of_mem_set hmem with hmem | heq
    · exact (h.asking q a hmem).later hlater
    · cases heq
  · have hcount := List.countP_set_add (p := Delivery.asksFor k) (.response process r stage') hd
    have hsame : clients.sentOf k = w.traffic.clients.sentOf k := by
      rcases Clients.handleResponse_cases h.wf hvalid hhandle with ⟨rfl, -⟩ |
        ⟨awaiter, call, -, -, hcall, -, -, -, rfl⟩ | ⟨awaiter, call, threw, -, -, -, -, -, -, rfl⟩
      · rfl
      · have hcalls := List.countP_set_add
          (p := fun c : Call V => c.sent && decide (c.correlationId = k))
          { call with completion := some (.result r) } hcall
        exact Nat.add_right_cancel hcalls
      · rfl
    have hold := h.once k
    simp only [requests, hsame, Delivery.asksFor, Bool.false_eq_true, if_false] at hold hcount ⊢
    omega
  · intro process' r' stage'' hmem
    rcases List.mem_or_eq_of_mem_set hmem with hmem | heq
    · exact (h.valid process' r' stage'' hmem).later hlater
    · cases heq
      exact hvalid'
  · intro process' r' stage'' hmem
    rcases List.mem_or_eq_of_mem_set hmem with hmem | heq
    · exact h.delivered process' r' stage'' hmem
    · cases heq
      exact hreplied
  · intro i call c hcall hdone
    obtain ⟨old, hold, hk, -, -, hcompletion⟩ :=
      Clients.handleResponse_calls h.wf hvalid hhandle hcall
    rcases hcompletion c hdone with hdone | ⟨rfl, hfor⟩
    · obtain ⟨r', rfl, hfor, hr'⟩ := h.completed i old c hold hdone
      exact ⟨r', rfl, hfor.trans (congrArg some hk.symm), hr'⟩
    · exact ⟨r, rfl, hfor, hreplied⟩

theorem Serving.Inv.step (h : w.Inv s impl) (hstep : w.step s impl l = some w') :
    w'.Inv s impl := by
  obtain ⟨traffic, htraffic, hnext⟩ := Serving.step_eq_some hstep
  rcases Traffic.step_cases htraffic with
    ⟨process, k, method, args, m, clients, hl, -, hreg, rfl⟩ |
    ⟨awaiter, call, hl, hcall, hun, rfl⟩ | ⟨n, q, broker, hl, htake, rfl⟩ |
    ⟨process, n, r, broker, hl, htake, rfl⟩ |
    ⟨delivery, implementation, q, acknowledged, hl, hd, rfl⟩ |
    ⟨delivery, process, r, stage, stage', clients, hl, hd, hhandle, rfl⟩
  · cases l <;> cases hl
    obtain ⟨-, rfl⟩ | ⟨q, hserved, -⟩ := hnext
    · exact h.execute (Option.some_ne_none _) hreg
    · cases hserved
  · cases l <;> cases hl
    obtain ⟨-, rfl⟩ | ⟨q, hserved, -⟩ := hnext
    · exact h.send hcall hun
    · cases hserved
  · cases l <;> cases hl
    obtain ⟨-, rfl⟩ | ⟨q', hserved, -⟩ := hnext
    · exact h.deliverRequest htake
    · cases hserved
  · cases l <;> cases hl
    obtain ⟨-, rfl⟩ | ⟨q, hserved, -⟩ := hnext
    · exact h.deliverResponse htake
    · cases hserved
  · cases l <;> cases hl
    have hserved : w.served (.handleRequest delivery) = some q := by
      simp only [Serving.served, hd]
    obtain ⟨hnone, -⟩ | ⟨q', hserved', rfl⟩ := hnext
    · rw [hserved] at hnone
      cases hnone
    · obtain rfl : q = q' := Option.some.inj (hserved.symm.trans hserved')
      exact h.handleRequest hd acknowledged
  · cases l <;> cases hl
    obtain ⟨-, rfl⟩ | ⟨q, hserved, -⟩ := hnext
    · exact h.handleResponse hd hhandle
    · cases hserved

theorem Serving.inv_init : (Serving.init s impl).Inv s impl where
  wf := Clients.wf_empty
  bindings := rfl
  state := rfl
  waiting queue q h := by
    obtain ⟨i, call, hcall, -⟩ := (Traffic.inv_init (s := s)).waiting queue q h
    cases hcall
  asking _ _ h := by cases h
  logged _ h := by cases h
  once k := by
    simp only [requests, init, Traffic.init, startListener, Broker.queues_bind, Broker.empty,
      List.countP_nil, Nat.add_zero]
    exact Nat.zero_le _
  valid _ _ _ h := by cases h
  queued queue r h := by
    have hempty : (Traffic.init s : Traffic V).broker.queues queue = [] := by
      simp only [Traffic.init, startListener, Broker.queues_bind, Broker.empty]
    change _ ∈ (Traffic.init s : Traffic V).broker.queues queue at h
    rw [hempty] at h
    cases h
  delivered _ _ _ h := by cases h
  completed _ _ _ h := by cases h

/-- A step only adds to the log, and calls stay what they are. -/
theorem Serving.Inv.step_later (h : w.Inv s impl) (hstep : w.step s impl l = some w') :
    w.traffic.clients.Later w'.traffic.clients ∧ ∃ later, w'.log = w.log ++ later := by
  obtain ⟨traffic, htraffic, hnext⟩ := Serving.step_eq_some hstep
  have hclients : w'.traffic = traffic := by
    obtain ⟨-, rfl⟩ | ⟨q, -, rfl⟩ := hnext
    · rfl
    · rfl
  refine ⟨?_, ?_⟩
  · rw [hclients]
    rcases Traffic.step_cases htraffic with
      ⟨process, k, method, args, m, clients, -, -, hreg, rfl⟩ | ⟨awaiter, call, -, hcall, -, rfl⟩ |
      ⟨n, q, broker, -, -, rfl⟩ | ⟨process, n, r, broker, -, -, rfl⟩ |
      ⟨delivery, implementation, q, acknowledged, -, -, rfl⟩ |
      ⟨delivery, process, r, stage, stage', clients, -, hd, hhandle, rfl⟩
    · exact (Clients.register_spec h.wf (Option.some_ne_none _) hreg).2.1
    · exact (Clients.markSent_spec h.wf hcall).2
    · exact Clients.Later.refl _
    · exact Clients.Later.refl _
    · exact Clients.Later.refl _
    · have hvalid := h.valid process r stage (List.mem_of_getElem? hd)
      exact (Clients.handleResponse_spec h.wf hvalid hhandle).2.1
  · obtain ⟨-, rfl⟩ | ⟨q, -, rfl⟩ := hnext
    · exact ⟨[], (List.append_nil _).symm⟩
    · exact ⟨[q], rfl⟩

/-- So does a run. -/
theorem Serving.Inv.run_later (h : w.Inv s impl) {ls : List (ServingLabel V)}
    (hrun : Transition.run (Serving.step s impl) w ls = some w') :
    w'.Inv s impl ∧ w.traffic.clients.Later w'.traffic.clients ∧
      ∃ later, w'.log = w.log ++ later := by
  refine Transition.run_invariant (I := fun v : Serving V S => v.Inv s impl ∧
    w.traffic.clients.Later v.traffic.clients ∧ ∃ later, v.log = w.log ++ later) ?_
    ⟨h, Clients.Later.refl _, [], (List.append_nil _).symm⟩ hrun
  rintro v l v' ⟨hv, hlater, later, hlog⟩ hstep
  obtain ⟨hnext, later', hlog'⟩ := hv.step_later hstep
  exact ⟨hv.step hstep, hlater.trans hnext, later ++ later', by rw [hlog', hlog, List.append_assoc]⟩

/-- What holds whenever the handler runs holds of the states in which the log is served. -/
theorem Serving.Inv.run_servedIn {C : S → Prop} (h : w.Inv s impl)
    (hlog : ServedIn (impl.serve s) impl.initial C w.log) {ls : List (ServingLabel V)}
    (hserved : Transition.Along (Serving.step s impl)
      (fun w l => ∀ q, w.served l = some q → C w.state) w ls)
    (hrun : Transition.run (Serving.step s impl) w ls = some w') :
    ServedIn (impl.serve s) impl.initial C w'.log := by
  refine (Transition.run_invariant_along (I := fun v : Serving V S => v.Inv s impl ∧
    ServedIn (impl.serve s) impl.initial C v.log) ?_ ⟨h, hlog⟩ hserved hrun).2
  rintro v l v' ⟨hv, hlog⟩ hserved hstep
  refine ⟨hv.step hstep, ?_⟩
  obtain ⟨traffic, -, ⟨-, rfl⟩ | ⟨q, hq, rfl⟩⟩ := Serving.step_eq_some hstep
  · exact hlog
  · refine servedIn_append_singleton.mpr ⟨hlog, ?_⟩
    rw [← hv.state]
    exact hserved q hq

end Steps

-- ============================================================================
-- The order of the log
-- ============================================================================

section Order

variable {s : Service Ty V} {impl : Implementation Ty V S} {w w' : Serving V S}

/-- No request is served twice. -/
theorem Serving.Inv.nodup (h : w.Inv s impl) : w.log.Nodup := by
  rw [List.nodup_iff_count_le_one]
  intro q
  by_cases hmem : q ∈ w.log
  · obtain ⟨i, call, hcall, rfl, -⟩ := h.logged q hmem
    have hid := h.wf.request_id hcall
    calc w.log.count call.request
        ≤ w.log.countP fun q => Message.isOf call.correlationId (.request q : Message V) := by
          rw [List.count_eq_countP]
          refine List.countP_mono_left fun q _ hq => ?_
          obtain rfl : q = call.request := by simpa using hq
          exact Message.isOf_request hid
      _ ≤ w.requests s call.correlationId := Nat.le_add_left _ _
      _ ≤ w.traffic.clients.sentOf call.correlationId := h.once _
      _ ≤ 1 := h.wf.sentOf_le _
  · rw [List.count_eq_zero_of_not_mem hmem]
    exact Nat.zero_le 1

/-- A call that has completed has the reply to its own request. -/
theorem Serving.Inv.answered (h : w.Inv s impl) {i : Nat} {call : Call V} {c : Completion V}
    (hcall : w.traffic.clients.calls[i]? = some call) (hdone : call.completion = some c) :
    ∃ r, c = .result r ∧ Answered (impl.serve s) impl.initial w.log call.request [r] := by
  obtain ⟨r, rfl, hfor, q, hanswered, hecho⟩ := h.completed i call c hcall hdone
  obtain ⟨j, other, hother, rfl, -⟩ := h.logged q hanswered.mem
  -- the reply has the id of the request, so the request is that of the call
  obtain ⟨headers, hheaders, hid, -⟩ := hecho
  obtain ⟨headers', hheaders', hid'⟩ := h.wf.addressed j other hother
  obtain rfl : headers' = headers := Option.some.inj (hheaders'.symm.trans hheaders)
  have hsame : other.correlationId = call.correlationId :=
    Option.some.inj (hid'.symm.trans (hid.symm.trans hfor))
  obtain rfl : j = i := h.wf.distinct j i other call hother hcall hsame
  obtain rfl : call = other := Option.some.inj (hcall.symm.trans hother)
  exact ⟨r, rfl, hanswered⟩

/-- What is served of a call that starts now comes after what has completed. -/
theorem Serving.Inv.precedes (h : w.Inv s impl) {ls : List (ServingLabel V)}
    (hrun : Transition.run (Serving.step s impl) w ls = some w') {i j : Nat} {call call' : Call V}
    (hcall : w.traffic.clients.calls[i]? = some call) (hdone : call.completion ≠ none)
    (hnew : w.traffic.clients.calls.length ≤ j)
    (hcall' : w'.traffic.clients.calls[j]? = some call') (hserved : call'.request ∈ w'.log) :
    Precedes w'.log call.request call'.request := by
  obtain ⟨h', hlater, later, hlog⟩ := h.run_later hrun
  obtain ⟨c, hc⟩ := Option.ne_none_iff_exists'.mp hdone
  obtain ⟨r, -, hanswered⟩ := h.answered hcall hc
  rw [hlog] at hserved ⊢
  refine precedes_of_mem hanswered.mem ((List.mem_append.mp hserved).resolve_left fun hold => ?_)
  -- a request of the old log is of an old call
  obtain ⟨k, other, hother, hreq, -⟩ := h.logged _ hold
  obtain ⟨other', hother', -, -, hreq', -⟩ := hlater k other hother
  obtain rfl : k = j := h'.wf.eq_of_request hother' hcall' (hreq'.trans hreq)
  have hlt := (List.getElem?_eq_some_iff.mp hother).1
  omega

/-- **A service behind RabbitMQ is linearizable.** In every reachable state its own state is
    the one that its log leads to; the log has requests that calls have sent, none twice; a
    call that has completed has completed with the one reply that the service gives to its
    request at its place in the log; and a call that has completed precedes every call that
    starts later. -/
theorem linearizable (s : Service Ty V) (impl : Implementation Ty V S)
    (hreach : Transition.Reachable (Serving.step s impl) (Serving.init s impl) w) :
    w.state = replay (impl.serve s) impl.initial w.log ∧
    (w.log.Nodup ∧ ∀ q ∈ w.log, w.HasSent q) ∧
    (∀ (i : Nat) call c, w.traffic.clients.calls[i]? = some call → call.completion = some c →
      ∃ r, c = .result r ∧ Answered (impl.serve s) impl.initial w.log call.request [r]) ∧
    ∀ ls w', Transition.run (Serving.step s impl) w ls = some w' →
      ∀ (i j : Nat) call call', w.traffic.clients.calls[i]? = some call →
        call.completion ≠ none → w.traffic.clients.calls.length ≤ j →
        w'.traffic.clients.calls[j]? = some call' → call'.request ∈ w'.log →
          Precedes w'.log call.request call'.request := by
  have h : w.Inv s impl :=
    hreach.invariant Serving.inv_init fun _ _ _ hv hstep => hv.step hstep
  refine ⟨h.state, ⟨h.nodup, h.logged⟩, fun i call c hcall hdone => h.answered hcall hdone, ?_⟩
  intro ls w' hrun i j call call' hcall hdone hnew hcall' hserved
  exact h.precedes hrun hcall hdone hnew hcall' hserved

end Order

section TestInterface

/-- `AsyncBooleanMethod` returns the value of the call before it. -/
def swapping : Implementation String Bool Bool where
  initial := false
  call state _ args := (.returned (some (.completed (some state))),
    (args.head?.join).getD state)

/-- The request of the second call overtakes that of the first. -/
def overtaken : List (ServingLabel Bool) :=
  [.execute 0 "a" 0 [some true], .execute 1 "b" 0 [some false], .send 0, .send 1,
    .deliverRequest 1, .handleRequest 0, .deliverRequest 0, .handleRequest 1,
    .deliverResponse 0 1, .handleResponse 2, .handleResponse 2]

theorem linearizable_overtaken : ∃ w,
    Transition.run (Serving.step testService swapping) (Serving.init testService swapping)
      overtaken = some w ∧ w.state = true ∧
    w.log.map RemoteRequest.args = [some [some "false"], some [some "true"]] ∧
    ∃ call r, w.traffic.clients.calls[0]? = some call ∧ call.completion = some (.result r) ∧
      r.response = some false ∧ Answered (swapping.serve testService) false w.log call.request
        [r] := by
  have hrun : Transition.run (Serving.step testService swapping)
      (Serving.init testService swapping) overtaken = some _ := rfl
  obtain ⟨r, hr, hanswered⟩ := (linearizable testService swapping ⟨_, hrun⟩).2.2.1 0 _ _ rfl rfl
  cases hr
  exact ⟨_, hrun, rfl, rfl, _, _, rfl, rfl, rfl, hanswered⟩

end TestInterface

end Milde.Remoting
