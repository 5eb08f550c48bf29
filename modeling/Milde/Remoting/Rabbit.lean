/-
  Milde.Remoting.Rabbit

  One service and its clients over RabbitMQ (Remoting.RabbitMq/Communication/,
  Remoting.RabbitMq/Registration/ServiceConfigurator.cs).

  A listener's queue is named after its exchange and the interface, so all clients of an
  interface share the response queue and the broker hands a response to any of them.  A
  delivery is acknowledged when its handler returns true; one that is not stays with its
  consumer.  A client that gets a response of another client's call does not know its id,
  returns false, and the response is gone.
-/
import Milde.Common.Run
import Milde.Common.TopicExchange
import Milde.Remoting.Client

namespace Milde.Remoting

open TopicExchange

variable {Ty V : Type}

/-- `RabbitConfiguration.ResponseExchange`. -/
def responseExchange : String := "RPC-Response"

/-- `RabbitConfiguration.RequestExchange`. -/
def requestExchange : String := "RPC-Request"

/-- `RabbitListener._queue`. -/
def listenerQueue (exchange serviceName : String) : String := s!"{exchange}.{serviceName}"

/-- The key that a listener binds its queue with. -/
def bindingKey (serviceName : String) : String := s!"{serviceName}.*"

/-- `RabbitListener.Start`, as far as the broker sees it. -/
def startListener {M : Type} (b : Broker M) (exchange serviceName : String) : Broker M :=
  b.bind ⟨exchange, bindingKey serviceName, listenerQueue exchange serviceName⟩

/-- `RabbitSender.Send`. -/
def rabbitSend {M : Type} (b : Broker M) (exchange : String) (headers : MessageHeaders) (m : M) :
    Broker M :=
  b.publish exchange (headers.routingKey.getD "") m

/-- An interface and the runtime of its proxies and its handler.  Names have no dots. -/
structure Service (Ty V : Type) where
  runtime : Runtime Ty V
  contract : ServiceInterface Ty
  dotless : '.' ∉ contract.type.name.toList
  dotlessMethods : ∀ m ∈ contract.methods, '.' ∉ m.name.toList

def Service.name (s : Service Ty V) : String := s.contract.type.name

/-- The handler, with what its implementation does this time; `Send` does not throw. -/
def Service.handler (s : Service Ty V)
    (implementation : MethodInfo Ty → List (Option V) → Invocation V) : MessageHandler Ty V where
  runtime := s.runtime
  contract := s.contract
  implementation
  send _ := .ok ()

/-- A message in a queue, as it was sent; what a client reads of a result is
    `RemoteResponse.readBack`. -/
inductive Message (V : Type) where
  | request (q : RemoteRequest)
  | response (r : RemoteResponse V)

/-- What the broker has handed out: a request to the server, whose handler runs until it
    has an end, a response to a client. -/
inductive Delivery (V : Type) where
  | request (q : RemoteRequest) (acknowledged : Option Bool)
  | response (process : Nat) (r : RemoteResponse V) (stage : Stage)

structure Traffic (V : Type) where
  clients : Clients V
  broker : Broker (Message V)
  deliveries : List (Delivery V)

/-- What happens next.  Methods, calls, messages and deliveries are named by position. -/
inductive TrafficLabel (Ty V : Type) where
  | execute (process : Nat) (correlationId : String) (method : Nat) (args : List (Option V))
  | send (awaiter : Nat)
  | deliverRequest (n : Nat)
  | deliverResponse (process n : Nat)
  | handleRequest (delivery : Nat)
      (implementation : MethodInfo Ty → List (Option V) → Invocation V)
  | handleResponse (delivery : Nat)

namespace Traffic

/-- All listeners have started. -/
def init (s : Service Ty V) : Traffic V where
  clients := Clients.empty
  broker := startListener (startListener Broker.empty requestExchange s.name) responseExchange
    s.name
  deliveries := []

/-- One step; `none` when the label is not enabled. -/
def step (s : Service Ty V) (w : Traffic V) : TrafficLabel Ty V → Option (Traffic V)
  | .execute process correlationId method args =>
      match s.contract.methods[method]? with
      | none => none
      | some m =>
          match proxyRequest s.runtime s.contract m args with
          | .error _ => none
          | .ok (request, routingKey) =>
              (w.clients.register process correlationId request routingKey).map fun clients =>
                { w with clients }
  | .send awaiter =>
      match w.clients.calls[awaiter]? with
      | none => none
      | some call =>
          if call.sent then none
          else some { w with
            clients := w.clients.markSent awaiter call
            broker := rabbitSend w.broker requestExchange (call.request.headers.getD {})
              (.request call.request) }
  | .deliverRequest n =>
      match w.broker.take (listenerQueue requestExchange s.name) n with
      | some (.request q, broker) => some { w with
          broker
          deliveries := w.deliveries ++ [.request q none] }
      | _ => none
  | .deliverResponse process n =>
      match w.broker.take (listenerQueue responseExchange s.name) n with
      | some (.response r, broker) => some { w with
          broker
          deliveries := w.deliveries ++ [.response process r .get] }
      | _ => none
  | .handleRequest delivery implementation =>
      match w.deliveries[delivery]? with
      | some (.request q none) =>
          let handled := (s.handler implementation).handleRequest q
          let acknowledged :=
            match handled.outcome with
            | .ok returned => returned
            | .error _ => false
          some { w with
            broker := handled.sent.foldl
              (fun broker r => rabbitSend broker responseExchange r.headers (.response r)) w.broker
            deliveries := w.deliveries.set delivery (.request q (some acknowledged)) }
      | _ => none
  | .handleResponse delivery =>
      match w.deliveries[delivery]? with
      | some (.response process r stage) =>
          (w.clients.handleResponse process r stage).map fun (clients, stage) => { w with
            clients
            deliveries := w.deliveries.set delivery (.response process r stage) }
      | _ => none

end Traffic

-- ============================================================================
-- What is promised
-- ============================================================================

/-- The delivery has the request of the call, and its handler is running. -/
def Delivery.Asks (call : Call V) : Delivery V → Prop
  | .request q acknowledged => q = call.request ∧ acknowledged = none
  | .response _ _ _ => False

/-- The delivery has a response for the call at the client that made it, and the run of its
    handler has not ended. -/
def Delivery.Answers (call : Call V) : Delivery V → Prop
  | .request _ _ => False
  | .response process r stage => process = call.process ∧ r.For call ∧
      ∀ returned, stage ≠ .ended returned

/-- The request or the response of the call is in a queue, being handled, or with the
    client that made the call. -/
def Traffic.Located (s : Service Ty V) (w : Traffic V) (call : Call V) : Prop :=
  .request call.request ∈ w.broker.queues (listenerQueue requestExchange s.name) ∨
  (∃ d ∈ w.deliveries, d.Asks call) ∨
  (∃ r, .response r ∈ w.broker.queues (listenerQueue responseExchange s.name) ∧ r.For call) ∨
  ∃ d ∈ w.deliveries, d.Answers call

/-- No call that has been sent and has not completed is lost. -/
def Traffic.NoneLost (s : Service Ty V) (w : Traffic V) : Prop :=
  ∀ (i : Nat) call, w.clients.calls[i]? = some call → call.sent = true → call.completion = none →
    w.Located s call

/-- A response is handed to the client that made its call, and a request is not answered
    by an implementation that throws an empty `AggregateException`. -/
def Traffic.Routed (s : Service Ty V) (w : Traffic V) : TrafficLabel Ty V → Prop
  | .deliverResponse process n =>
      ∀ r, (w.broker.queues (listenerQueue responseExchange s.name))[n]? = some (.response r) →
        ∀ call ∈ w.clients.calls, r.For call → call.process = process
  | .handleRequest delivery implementation =>
      ∀ q, w.deliveries[delivery]? = some (.request q none) →
        ¬ (s.handler implementation).ThrowsEmpty q
  | _ => True

-- ============================================================================
-- Keys and queues
-- ============================================================================

/-- A key under which the messages of the service go. -/
def Service.IsKey (s : Service Ty V) (key : String) : Prop :=
  ∃ m ∈ s.contract.methods, key = getRoutingKey s.contract m.name

section Keys

variable {s : Service Ty V} {key : String}

/-- The binding of a listener matches every key of its service. -/
theorem topicMatches_key (hkey : s.IsKey key) :
    topicMatches (words (bindingKey s.name)) (words key) = true := by
  obtain ⟨m, hm, rfl⟩ := hkey
  have hname : '.' ∉ s.name.toList := s.dotless
  have hpattern : words (bindingKey s.name) = [s.name.toList, ['*']] := by
    have heq : bindingKey s.name = s.name ++ "." ++ "*" := by
      rw [String.append_assoc]
      rfl
    rw [heq, words_pair hname]
    rfl
  have hwords : words (getRoutingKey s.contract m.name) = [s.name.toList, m.name.toList] := by
    have heq : getRoutingKey s.contract m.name = s.name ++ "." ++ m.name := rfl
    rw [heq, words_pair hname, words_single (s.dotlessMethods m hm)]
  rw [hpattern, hwords]
  exact topicMatches_star _ _

theorem mem_bindings (exchange : String) (h : exchange = requestExchange ∨
    exchange = responseExchange) : (⟨exchange, bindingKey s.name,
      listenerQueue exchange s.name⟩ : Binding) ∈ (Traffic.init s).broker.bindings := by
  rcases h with rfl | rfl
  · exact Broker.mem_bind.mpr (Or.inl (Broker.mem_bind.mpr (Or.inr rfl)))
  · exact Broker.mem_bind.mpr (Or.inr rfl)

/-- What is sent under a key of the service reaches the queue of the exchange. -/
theorem mem_rabbitSend {b : Broker (Message V)} {exchange : String}
    (hb : b.bindings = (Traffic.init s).broker.bindings)
    (h : exchange = requestExchange ∨ exchange = responseExchange) (hkey : s.IsKey key)
    {headers : MessageHeaders} (hheaders : headers.routingKey = some key) (m : Message V) :
    m ∈ (rabbitSend b exchange headers m).queues (listenerQueue exchange s.name) := by
  refine Broker.mem_publish.mpr (Or.inr ⟨?_, rfl⟩)
  rw [hheaders, Option.getD_some]
  refine Broker.routes_of_mem ?_ (topicMatches_key hkey)
  rw [hb]
  exact mem_bindings exchange h

/-- Sending loses nothing. -/
theorem queues_rabbitSend {b : Broker (Message V)} {exchange queue : String}
    {headers : MessageHeaders} {m m' : Message V} (h : m' ∈ b.queues queue) :
    m' ∈ (rabbitSend b exchange headers m).queues queue :=
  Broker.mem_publish.mpr (Or.inl h)

end Keys

-- ============================================================================
-- The invariant
-- ============================================================================

/-- The request of a call: it has the call's id and a key of the service. -/
def Service.Keyed (s : Service Ty V) (call : Call V) : Prop :=
  ∃ headers key, call.request.headers = some headers ∧
    headers.correlationId = some call.correlationId ∧ headers.routingKey = some key ∧ s.IsKey key

/-- Some call has sent the request. -/
def Traffic.Sends (w : Traffic V) (q : RemoteRequest) : Prop :=
  ∃ (i : Nat) (call : Call V), w.clients.calls[i]? = some call ∧ call.request = q

structure Traffic.Inv (s : Service Ty V) (w : Traffic V) : Prop where
  wf : w.clients.Wf
  bindings : w.broker.bindings = (Traffic.init s).broker.bindings
  keyed : ∀ (i : Nat) call, w.clients.calls[i]? = some call → s.Keyed call
  waiting : ∀ queue q, .request q ∈ w.broker.queues queue → w.Sends q
  asking : ∀ q acknowledged, .request q acknowledged ∈ w.deliveries → w.Sends q
  valid : ∀ process r stage, .response process r stage ∈ w.deliveries →
    stage.Valid w.clients process r
  located : w.NoneLost s

section Inv

variable {s : Service Ty V} {w w' : Traffic V} {call : Call V}

/-- The six things a step does. -/
theorem Traffic.step_cases {l : TrafficLabel Ty V} (h : w.step s l = some w') :
    (∃ process k method args m clients, l = .execute process k method args ∧
      m ∈ s.contract.methods ∧
      w.clients.register process k (RemoteRequest.create m.name
        (args.map s.runtime.serializeObject)) (getRoutingKey s.contract m.name) = some clients ∧
      w' = { w with clients }) ∨
    (∃ awaiter call, l = .send awaiter ∧ w.clients.calls[awaiter]? = some call ∧
      call.sent = false ∧ w' = { w with
        clients := w.clients.markSent awaiter call
        broker := rabbitSend w.broker requestExchange (call.request.headers.getD {})
          (.request call.request) }) ∨
    (∃ n q broker, l = .deliverRequest n ∧
      w.broker.take (listenerQueue requestExchange s.name) n = some (.request q, broker) ∧
      w' = { w with broker, deliveries := w.deliveries ++ [.request q none] }) ∨
    (∃ process n r broker, l = .deliverResponse process n ∧
      w.broker.take (listenerQueue responseExchange s.name) n = some (.response r, broker) ∧
      w' = { w with broker, deliveries := w.deliveries ++ [.response process r .get] }) ∨
    (∃ delivery implementation q acknowledged, l = .handleRequest delivery implementation ∧
      w.deliveries[delivery]? = some (.request q none) ∧ w' = { w with
        broker := ((s.handler implementation).handleRequest q).sent.foldl
          (fun broker r => rabbitSend broker responseExchange r.headers (.response r)) w.broker
        deliveries := w.deliveries.set delivery (.request q (some acknowledged)) }) ∨
    (∃ delivery process r stage stage' clients, l = .handleResponse delivery ∧
      w.deliveries[delivery]? = some (.response process r stage) ∧
      w.clients.handleResponse process r stage = some (clients, stage') ∧ w' = { w with
        clients
        deliveries := w.deliveries.set delivery (.response process r stage') }) := by
  cases l with
  | execute process k method args =>
      simp only [Traffic.step] at h
      split at h
      · cases h
      · rename_i m hm
        split at h
        · cases h
        · rename_i request key hproxy
          obtain ⟨clients, hreg, rfl⟩ := Option.map_eq_some_iff.mp h
          obtain ⟨-, -, rfl, rfl⟩ := proxyRequest_eq_ok.mp hproxy
          exact Or.inl ⟨process, k, method, args, m, clients, rfl, List.mem_of_getElem? hm, hreg,
            rfl⟩
  | send awaiter =>
      simp only [Traffic.step] at h
      split at h
      · cases h
      · rename_i call hcall
        split at h
        · cases h
        · rename_i hnot
          cases h
          exact Or.inr (Or.inl ⟨awaiter, call, rfl, hcall, Bool.eq_false_iff.mpr hnot, rfl⟩)
  | deliverRequest n =>
      simp only [Traffic.step] at h
      split at h
      · rename_i q broker htake
        cases h
        exact Or.inr (Or.inr (Or.inl ⟨n, q, broker, rfl, htake, rfl⟩))
      · cases h
  | deliverResponse process n =>
      simp only [Traffic.step] at h
      split at h
      · rename_i r broker htake
        cases h
        exact Or.inr (Or.inr (Or.inr (Or.inl ⟨process, n, r, broker, rfl, htake, rfl⟩)))
      · cases h
  | handleRequest delivery implementation =>
      simp only [Traffic.step] at h
      split at h
      · rename_i q hd
        cases h
        exact Or.inr (Or.inr (Or.inr (Or.inr (Or.inl
          ⟨delivery, implementation, q, _, rfl, hd, rfl⟩))))
      · cases h
  | handleResponse delivery =>
      simp only [Traffic.step] at h
      split at h
      · rename_i process r stage hd
        obtain ⟨⟨clients, stage'⟩, hhandle, rfl⟩ := Option.map_eq_some_iff.mp h
        exact Or.inr (Or.inr (Or.inr (Or.inr (Or.inr
          ⟨delivery, process, r, stage, stage', clients, rfl, hd, hhandle, rfl⟩))))
      · cases h

/-- A call is still located when the queues have only grown. -/
theorem Traffic.Located.mono (h : w.Located s call)
    (hqueues : ∀ queue m, m ∈ w.broker.queues queue → m ∈ w'.broker.queues queue)
    (hasks : (∃ d ∈ w.deliveries, d.Asks call) → w'.Located s call)
    (hanswers : (∃ d ∈ w.deliveries, d.Answers call) → w'.Located s call) :
    w'.Located s call := by
  rcases h with h | h | ⟨r, hmem, hr⟩ | h
  · exact Or.inl (hqueues _ _ h)
  · exact hasks h
  · exact Or.inr (Or.inr (Or.inl ⟨r, hqueues _ _ hmem, hr⟩))
  · exact hanswers h

theorem Traffic.Sends.later {q : RemoteRequest} (h : w.Sends q)
    (hlater : w.clients.Later w'.clients) : w'.Sends q := by
  obtain ⟨i, call, hcall, rfl⟩ := h
  obtain ⟨call', hcall', -, -, hreq, -⟩ := hlater i call hcall
  exact ⟨i, call', hcall', hreq⟩

/-- A new call is not sent yet, so nothing of it can be lost. -/
theorem Traffic.Inv.execute (h : w.Inv s) {process : Nat} {k : String} {m : MethodInfo Ty}
    {args : List (Option V)} {clients : Clients V} (hm : m ∈ s.contract.methods)
    (hreg : w.clients.register process k (RemoteRequest.create m.name
      (args.map s.runtime.serializeObject)) (getRoutingKey s.contract m.name) = some clients) :
    Traffic.Inv s { w with clients } := by
  obtain ⟨hwf, hlater, hcalls⟩ := Clients.register_spec h.wf (Option.some_ne_none _) hreg
  have hold : ∀ (i : Nat) call, clients.calls[i]? = some call →
      w.clients.calls[i]? = some call ∨ call = ⟨process, k, (RemoteRequest.create m.name
        (args.map s.runtime.serializeObject)).setHeaders k (getRoutingKey s.contract m.name),
        false, none⟩ := by
    intro i call hcall
    rw [hcalls] at hcall
    rcases List.getElem?_append_singleton hcall with hcall | ⟨-, rfl⟩
    · exact Or.inl hcall
    · exact Or.inr rfl
  have hsends : ∀ q, w.Sends q → Traffic.Sends { w with clients } q :=
    fun q hq => hq.later hlater
  refine ⟨hwf, h.bindings, ?_, fun queue q hq => hsends q (h.waiting queue q hq),
    fun q a hq => hsends q (h.asking q a hq),
    fun p r stage hd => (h.valid p r stage hd).later hlater, ?_⟩
  · intro i call hcall
    rcases hold i call hcall with hcall | rfl
    · exact h.keyed i call hcall
    · exact ⟨_, _, rfl, rfl, rfl, m, hm, rfl⟩
  · intro i call hcall hsent hopen
    rcases hold i call hcall with hcall | rfl
    · exact h.located i call hcall hsent hopen
    · cases hsent

/-- A request that is sent is in the queue. -/
theorem Traffic.Inv.send (h : w.Inv s) {awaiter : Nat} {call₀ : Call V}
    (hcall₀ : w.clients.calls[awaiter]? = some call₀) :
    Traffic.Inv s { w with
      clients := w.clients.markSent awaiter call₀
      broker := rabbitSend w.broker requestExchange (call₀.request.headers.getD {})
        (.request call₀.request) } := by
  obtain ⟨hwf, hlater⟩ := Clients.markSent_spec h.wf hcall₀
  have hself := List.getElem?_set_self (l := w.clients.calls)
    (a := { call₀ with sent := true }) (List.getElem?_eq_some_iff.mp hcall₀).1
  obtain ⟨headers, key, hheaders, hid, hkey, hiskey⟩ := h.keyed awaiter call₀ hcall₀
  refine ⟨hwf, h.bindings, ?_, ?_, fun q a hq => (h.asking q a hq).later hlater,
    fun p r stage hd => (h.valid p r stage hd).later hlater, ?_⟩
  · intro i call hcall
    rcases List.getElem?_set_cases hcall with ⟨rfl, rfl⟩ | ⟨-, hcall⟩
    · exact h.keyed awaiter call₀ hcall₀
    · exact h.keyed i call hcall
  · intro queue q hq
    rcases Broker.mem_publish.mp hq with hq | ⟨-, hq⟩
    · exact (h.waiting queue q hq).later hlater
    · cases hq
      exact ⟨awaiter, _, hself, rfl⟩
  · intro i call hcall hsent hopen
    rcases List.getElem?_set_cases hcall with ⟨rfl, rfl⟩ | ⟨-, hcall⟩
    · left
      show Message.request call₀.request ∈ (rabbitSend w.broker requestExchange
        (call₀.request.headers.getD {}) _).queues _
      rw [hheaders, Option.getD_some]
      exact mem_rabbitSend h.bindings (Or.inl rfl) hiskey hkey _
    · exact (h.located i call hcall hsent hopen).mono (fun _ _ hm => queues_rabbitSend hm)
        (fun hasks => Or.inr (Or.inl hasks)) fun hanswers => Or.inr (Or.inr (Or.inr hanswers))

/-- A request goes from its queue to the server. -/
theorem Traffic.Inv.deliverRequest (h : w.Inv s) {n : Nat} {q : RemoteRequest}
    {broker : Broker (Message V)}
    (htake : w.broker.take (listenerQueue requestExchange s.name) n = some (.request q, broker)) :
    Traffic.Inv s { w with broker, deliveries := w.deliveries ++ [.request q none] } := by
  obtain ⟨hq, hback⟩ := Broker.mem_of_take htake
  have hsends := h.waiting _ q hq
  refine ⟨h.wf, (Broker.take_bindings htake).trans h.bindings, h.keyed,
    fun queue q' hq' => h.waiting queue q' (hback queue _ hq'), ?_, ?_, ?_⟩
  · intro q' a hd
    rcases List.mem_append.mp hd with hd | hd
    · exact h.asking q' a hd
    · cases List.mem_singleton.mp hd
      exact hsends
  · intro process r stage hd
    rcases List.mem_append.mp hd with hd | hd
    · exact h.valid process r stage hd
    · cases List.mem_singleton.mp hd
  · intro i call hcall hsent hopen
    rcases h.located i call hcall hsent hopen with hloc | ⟨d, hd, hasks⟩ | ⟨r, hr, hfor⟩ |
      ⟨d, hd, hanswers⟩
    · rcases Broker.mem_or_eq_of_take htake hloc with hloc | ⟨-, heq⟩
      · exact Or.inl hloc
      · cases heq
        exact Or.inr (Or.inl ⟨_, List.mem_append_right _ (List.mem_singleton_self _), rfl, rfl⟩)
    · exact Or.inr (Or.inl ⟨d, List.mem_append_left _ hd, hasks⟩)
    · rcases Broker.mem_or_eq_of_take htake hr with hr | ⟨-, heq⟩
      · exact Or.inr (Or.inr (Or.inl ⟨r, hr, hfor⟩))
      · cases heq
    · exact Or.inr (Or.inr (Or.inr ⟨d, List.mem_append_left _ hd, hanswers⟩))

/-- A response goes from its queue to the client whose call it is for. -/
theorem Traffic.Inv.deliverResponse (h : w.Inv s) {process n : Nat} {r : RemoteResponse V}
    {broker : Broker (Message V)}
    (hrouted : w.Routed s (.deliverResponse process n : TrafficLabel Ty V))
    (htake : w.broker.take (listenerQueue responseExchange s.name) n =
      some (.response r, broker)) :
    Traffic.Inv s { w with
      broker
      deliveries := w.deliveries ++ [.response process r .get] } := by
  obtain ⟨-, hback⟩ := Broker.mem_of_take htake
  obtain ⟨_, hn, htaken⟩ := Option.map_eq_some_iff.mp htake
  cases htaken
  refine ⟨h.wf, h.bindings, h.keyed, fun queue q hq => h.waiting queue q (hback queue _ hq),
    ?_, ?_, ?_⟩
  · intro q a hd
    rcases List.mem_append.mp hd with hd | hd
    · exact h.asking q a hd
    · cases List.mem_singleton.mp hd
  · intro process' r' stage hd
    rcases List.mem_append.mp hd with hd | hd
    · exact h.valid process' r' stage hd
    · cases List.mem_singleton.mp hd
      trivial
  · intro i call hcall hsent hopen
    rcases h.located i call hcall hsent hopen with hloc | ⟨d, hd, hasks⟩ | ⟨r', hr, hfor⟩ |
      ⟨d, hd, hanswers⟩
    · rcases Broker.mem_or_eq_of_take htake hloc with hloc | ⟨-, heq⟩
      · exact Or.inl hloc
      · cases heq
    · exact Or.inr (Or.inl ⟨d, List.mem_append_left _ hd, hasks⟩)
    · rcases Broker.mem_or_eq_of_take htake hr with hr | ⟨-, heq⟩
      · exact Or.inr (Or.inr (Or.inl ⟨r', hr, hfor⟩))
      · cases heq
        have hp := hrouted r hn call (List.mem_of_getElem? hcall) hfor
        exact Or.inr (Or.inr (Or.inr ⟨_, List.mem_append_right _ (List.mem_singleton_self _),
          hp.symm, hfor, fun _ hend => by cases hend⟩))
    · exact Or.inr (Or.inr (Or.inr ⟨d, List.mem_append_left _ hd, hanswers⟩))

/-- The queues after the replies of a handler. -/
theorem queues_replies {b : Broker (Message V)} (sent : List (RemoteResponse V)) {queue : String}
    {m : Message V} :
    (m ∈ b.queues queue → m ∈ (sent.foldl (fun broker r => rabbitSend broker responseExchange
      r.headers (.response r)) b).queues queue) ∧
    (m ∈ (sent.foldl (fun broker r => rabbitSend broker responseExchange r.headers
      (.response r)) b).queues queue → m ∈ b.queues queue ∨ ∃ r, m = .response r) := by
  induction sent generalizing b with
  | nil => exact ⟨id, Or.inl⟩
  | cons r sent ih =>
      have hrest := ih (b := rabbitSend b responseExchange r.headers (.response r))
      refine ⟨fun hm => hrest.1 (queues_rabbitSend hm), fun hm => ?_⟩
      rcases hrest.2 hm with hm | hm
      · rcases Broker.mem_publish.mp hm with hm | ⟨-, hm⟩
        · exact Or.inl hm
        · exact Or.inr ⟨r, hm⟩
      · exact Or.inr hm

/-- The answer to the request of a call is in the response queue. -/
theorem mem_replies {b : Broker (Message V)} (hb : b.bindings = (Traffic.init s).broker.bindings)
    {handler : MessageHandler Ty V} (hsend : ∀ r, handler.send r = .ok ())
    (hkeyed : s.Keyed call) (hempty : ¬ handler.ThrowsEmpty call.request) :
    ∃ r, r.For call ∧ .response r ∈ ((handler.handleRequest call.request).sent.foldl
      (fun broker r => rabbitSend broker responseExchange r.headers (.response r)) b).queues
        (listenerQueue responseExchange s.name) := by
  obtain ⟨headers, key, hheaders, hid, hkey, hiskey⟩ := hkeyed
  obtain ⟨r, hsent, -⟩ := handleRequest_answers hheaders hsend hempty
  have hecho : r.Echoes call.request := by
    apply mem_handleRequest_sent (h := handler)
    rw [hsent]
    exact List.mem_singleton_self r
  obtain ⟨headers', hheaders', hid', hkey'⟩ := hecho
  obtain rfl : headers' = headers := Option.some.inj (hheaders'.symm.trans hheaders)
  refine ⟨r, hid'.trans hid, ?_⟩
  rw [hsent]
  exact mem_rabbitSend hb (Or.inr rfl) hiskey (hkey'.trans hkey) _

theorem bindings_replies (b : Broker (Message V)) (sent : List (RemoteResponse V)) :
    (sent.foldl (fun broker r => rabbitSend broker responseExchange r.headers (.response r))
      b).bindings = b.bindings := by
  induction sent generalizing b with
  | nil => rfl
  | cons r sent ih => exact (ih (rabbitSend b responseExchange r.headers (.response r))).trans rfl

/-- A handled request has become a response. -/
theorem Traffic.Inv.handleRequest (h : w.Inv s) {delivery : Nat}
    {implementation : MethodInfo Ty → List (Option V) → Invocation V} {q : RemoteRequest}
    (hrouted : w.Routed s (.handleRequest delivery implementation))
    (hd : w.deliveries[delivery]? = some (.request q none)) (acknowledged : Bool) :
    Traffic.Inv s { w with
      broker := ((s.handler implementation).handleRequest q).sent.foldl
        (fun broker r => rabbitSend broker responseExchange r.headers (.response r)) w.broker
      deliveries := w.deliveries.set delivery (.request q (some acknowledged)) } := by
  have hempty := hrouted q hd
  have hset : ∀ d a, d ∈ w.deliveries.set delivery (.request q (some a)) →
      d ∈ w.deliveries ∨ d = .request q (some a) :=
    fun d a hmem => List.mem_or_eq_of_mem_set hmem
  refine ⟨h.wf, (bindings_replies _ _).trans h.bindings, h.keyed, ?_, ?_, ?_, ?_⟩
  · intro queue q' hq'
    rcases (queues_replies _).2 hq' with hq' | ⟨r, hr⟩
    · exact h.waiting queue q' hq'
    · cases hr
  · intro q' a hmem
    rcases hset _ _ hmem with hmem | heq
    · exact h.asking q' a hmem
    · cases heq
      exact h.asking q none (List.mem_of_getElem? hd)
  · intro process r stage hmem
    rcases hset _ _ hmem with hmem | heq
    · exact h.valid process r stage hmem
    · cases heq
  · intro i call hcall hsent hopen
    refine (h.located i call hcall hsent hopen).mono
      (fun _ _ hm => (queues_replies _).1 hm) ?_ ?_
    · rintro hasks
      by_cases hself : Delivery.Asks call (.request q none)
      · -- this very delivery
        obtain ⟨rfl, -⟩ := hself
        have hsend : ∀ r, (s.handler implementation).send r = .ok () := fun _ => rfl
        obtain ⟨r, hfor, hmem⟩ := mem_replies h.bindings hsend (h.keyed i call hcall) hempty
        exact Or.inr (Or.inr (Or.inl ⟨r, hmem, hfor⟩))
      · exact Or.inr (Or.inl (List.exists_mem_set hasks hd fun hP => absurd hP hself))
    · intro hanswers
      exact Or.inr (Or.inr (Or.inr (List.exists_mem_set hanswers hd fun hP => hP.elim)))

/-- A run of `HandleResponse` keeps its response until it has completed the call. -/
theorem Traffic.Inv.handleResponse (h : w.Inv s) {delivery process : Nat}
    {r : RemoteResponse V} {stage stage' : Stage} {clients : Clients V}
    (hd : w.deliveries[delivery]? = some (.response process r stage))
    (hhandle : w.clients.handleResponse process r stage = some (clients, stage')) :
    Traffic.Inv s { w with
      clients
      deliveries := w.deliveries.set delivery (.response process r stage') } := by
  have hvalid := h.valid process r stage (List.mem_of_getElem? hd)
  obtain ⟨hwf, hlater, hvalid'⟩ := Clients.handleResponse_spec h.wf hvalid hhandle
  refine ⟨hwf, h.bindings, ?_, fun queue q hq => (h.waiting queue q hq).later hlater, ?_, ?_, ?_⟩
  · intro i call hcall
    obtain ⟨old, hold, hk, hr, -⟩ := Clients.handleResponse_calls h.wf hvalid hhandle hcall
    obtain ⟨headers, key, hheaders, hid, hkey⟩ := h.keyed i old hold
    exact ⟨headers, key, by rw [hr, hheaders], by rw [hk, hid], hkey⟩
  · intro q a hmem
    rcases List.mem_or_eq_of_mem_set hmem with hmem | heq
    · exact (h.asking q a hmem).later hlater
    · cases heq
  · intro process' r' stage'' hmem
    rcases List.mem_or_eq_of_mem_set hmem with hmem | heq
    · exact (h.valid process' r' stage'' hmem).later hlater
    · cases heq
      exact hvalid'
  · intro i call hcall hsent hopen
    obtain ⟨old, hold, -, -, heq, -⟩ := Clients.handleResponse_calls h.wf hvalid hhandle hcall
    obtain rfl := heq hopen
    refine (h.located i call hold hsent hopen).mono (fun _ _ hm => hm) ?_ ?_
    · intro hasks
      exact Or.inr (Or.inl (List.exists_mem_set hasks hd fun hP => hP.elim))
    · intro hanswers
      refine Or.inr (Or.inr (Or.inr (List.exists_mem_set hanswers hd ?_)))
      rintro ⟨hp, hfor, -⟩
      rcases Clients.handleResponse_pending h.wf hvalid hhandle hold hopen hp.symm hfor with
        rfl | ⟨call', hcall', hdone⟩
      · exact ⟨hp, hfor, fun _ hend => by cases hend⟩
      · obtain rfl : call = call' := Option.some.inj (hcall.symm.trans hcall')
        exact absurd hopen hdone

theorem Traffic.inv_init : (Traffic.init s).Inv s where
  wf := Clients.wf_empty
  bindings := rfl
  keyed _ _ h := by cases h
  waiting queue q h := by
    have hempty : (Traffic.init s).broker.queues queue = [] := by
      simp only [Traffic.init, startListener, Broker.queues_bind, Broker.empty]
    rw [hempty] at h
    cases h
  asking _ _ h := by cases h
  valid _ _ _ h := by cases h
  located _ _ h := by cases h

theorem Traffic.Inv.step (h : w.Inv s) {l : TrafficLabel Ty V} (hrouted : w.Routed s l)
    (hstep : w.step s l = some w') : w'.Inv s := by
  rcases Traffic.step_cases hstep with
    ⟨process, k, method, args, m, clients, -, hm, hreg, rfl⟩ | ⟨awaiter, call, -, hcall, -, rfl⟩ |
    ⟨n, q, broker, -, htake, rfl⟩ | ⟨process, n, r, broker, rfl, htake, rfl⟩ |
    ⟨delivery, implementation, q, acknowledged, rfl, hd, rfl⟩ |
    ⟨delivery, process, r, stage, stage', clients, -, hd, hhandle, rfl⟩
  · exact h.execute hm hreg
  · exact h.send hcall
  · exact h.deliverRequest htake
  · exact h.deliverResponse hrouted htake
  · exact h.handleRequest hrouted hd acknowledged
  · exact h.handleResponse hd hhandle

end Inv

end Milde.Remoting
