/-
  Milde.Remoting.Namesakes

  Several services over one RabbitMQ.

  The services share the two exchanges, and a client process has one registry for the
  proxies of all of them.  A queue, its binding and the routing key of a request are all made
  of the simple name of the interface (`typeof(TInterface).Name`).  So what is sent through a
  proxy of one service never reaches a listener of another one as long as their interfaces
  have different simple names, and only then (`isolated_iff`): interfaces of one name in two
  namespaces or assemblies share their queues.
-/
import Milde.Remoting.NoneLost

namespace Milde.Remoting

open TopicExchange
open Milde.EventSourcing (ClrType)

variable {Ty V : Type}

-- ============================================================================
-- Several services
-- ============================================================================

/-- The traffic of all services.  `owners` has for each call the service whose proxy it was
    made through, `holders` for each delivery the service whose listener it was made to. -/
structure SharedTraffic (V : Type) where
  traffic : Traffic V
  owners : List Nat
  holders : List Nat

/-- A step of the traffic that a component of one of the services takes part in. -/
structure SharedLabel (Ty V : Type) where
  service : Nat
  label : TrafficLabel Ty V

/-- All listeners of all services have started. -/
def sharedBroker (services : List (Service Ty V)) : Broker (Message V) :=
  services.foldl (fun b s =>
    startListener (startListener b requestExchange s.name) responseExchange s.name) Broker.empty

namespace SharedTraffic

def init (services : List (Service Ty V)) : SharedTraffic V where
  traffic := ⟨Clients.empty, sharedBroker services, []⟩
  owners := []
  holders := []

/-- A proxy sends its own calls, and a handler handles what its listener has got. -/
def Allows (w : SharedTraffic V) (service : Nat) : TrafficLabel Ty V → Prop
  | .send awaiter => w.owners[awaiter]? = some service
  | .handleRequest delivery _ => w.holders[delivery]? = some service
  | .handleResponse delivery => w.holders[delivery]? = some service
  | _ => True

instance (w : SharedTraffic V) (service : Nat) :
    (l : TrafficLabel Ty V) → Decidable (w.Allows service l)
  | .execute _ _ _ _ => .isTrue trivial
  | .send _ => inferInstanceAs (Decidable (_ = _))
  | .deliverRequest _ => .isTrue trivial
  | .deliverResponse _ _ => .isTrue trivial
  | .handleRequest _ _ => inferInstanceAs (Decidable (_ = _))
  | .handleResponse _ => inferInstanceAs (Decidable (_ = _))

/-- The state after a step that a component of the service has taken. -/
def record (w : SharedTraffic V) (service : Nat) (traffic : Traffic V) :
    TrafficLabel Ty V → SharedTraffic V
  | .execute _ _ _ _ => ⟨traffic, w.owners ++ [service], w.holders⟩
  | .deliverRequest _ => ⟨traffic, w.owners, w.holders ++ [service]⟩
  | .deliverResponse _ _ => ⟨traffic, w.owners, w.holders ++ [service]⟩
  | _ => { w with traffic }

/-- One step; `none` when the label is not enabled. -/
def step (services : List (Service Ty V)) (w : SharedTraffic V) (l : SharedLabel Ty V) :
    Option (SharedTraffic V) :=
  match services[l.service]? with
  | none => none
  | some s =>
      if w.Allows l.service l.label then
        (w.traffic.step s l.label).map fun traffic => w.record l.service traffic l.label
      else none

end SharedTraffic

/-- The message belongs to the call. -/
def Message.Of (call : Call V) : Message V → Prop
  | .request q => q = call.request
  | .response r => r.For call

def Delivery.message : Delivery V → Message V
  | .request q _ => .request q
  | .response _ r _ => .response r

/-- What a listener of a service has got belongs to a call, and to calls through proxies of the
    service only. -/
def SharedTraffic.Isolated (w : SharedTraffic V) : Prop :=
  ∀ (n i : Nat) delivery, w.traffic.deliveries[n]? = some delivery → w.holders[n]? = some i →
    (∃ (c : Nat) (call : Call V),
      w.traffic.clients.calls[c]? = some call ∧ delivery.message.Of call) ∧
    ∀ (c : Nat) call, w.traffic.clients.calls[c]? = some call → delivery.message.Of call →
      w.owners[c]? = some i

/-- The proxy lets some method through. -/
def Service.Callable (s : Service Ty V) : Prop :=
  ∃ m ∈ s.contract.methods, m.returnType.isTask = true ∧ m.returnType.isGenericType = true

/-- The name of an interface is no wildcard. -/
def Service.Plain (s : Service Ty V) : Prop := s.name ≠ "*" ∧ s.name ≠ "#"

-- ============================================================================
-- Routes
-- ============================================================================

section Routes

variable {services : List (Service Ty V)} {s t : Service Ty V}

theorem mem_sharedBroker {x : Binding} : x ∈ (sharedBroker services).bindings ↔
    ∃ s ∈ services, ∃ exchange, (exchange = requestExchange ∨ exchange = responseExchange) ∧
      x = ⟨exchange, bindingKey s.name, listenerQueue exchange s.name⟩ := by
  have hfold : ∀ (services : List (Service Ty V)) (b : Broker (Message V)),
      x ∈ (services.foldl (fun b s => startListener (startListener b requestExchange s.name)
        responseExchange s.name) b).bindings ↔ x ∈ b.bindings ∨
      ∃ s ∈ services, ∃ exchange, (exchange = requestExchange ∨ exchange = responseExchange) ∧
        x = ⟨exchange, bindingKey s.name, listenerQueue exchange s.name⟩ := by
    intro services
    induction services with
    | nil => simp
    | cons s services ih =>
        intro b
        rw [List.foldl_cons, ih, startListener, startListener, Broker.mem_bind, Broker.mem_bind]
        simp [or_assoc]
  rw [sharedBroker, hfold]
  simp [Broker.empty]

theorem words_bindingKey (s : Service Ty V) :
    words (bindingKey s.name) = [s.name.toList, ['*']] := by
  have hname : '.' ∉ s.name.toList := s.dotless
  have heq : bindingKey s.name = s.name ++ "." ++ "*" := by
    rw [String.append_assoc]
    rfl
  rw [heq, words_pair hname]
  rfl

theorem words_getRoutingKey {m : MethodInfo Ty} (hm : m ∈ s.contract.methods) :
    words (getRoutingKey s.contract m.name) = [s.name.toList, m.name.toList] := by
  have hname : '.' ∉ s.name.toList := s.dotless
  have heq : getRoutingKey s.contract m.name = s.name ++ "." ++ m.name := rfl
  rw [heq, words_pair hname, words_single (s.dotlessMethods m hm)]

/-- The name of a queue tells the exchange and the interface. -/
theorem listenerQueue_inj {exchange exchange' : String} (he : '.' ∉ exchange.toList)
    (he' : '.' ∉ exchange'.toList)
    (h : listenerQueue exchange s.name = listenerQueue exchange' t.name) :
    exchange = exchange' ∧ s.name = t.name := by
  have hwords : words (exchange ++ "." ++ s.name) = words (exchange' ++ "." ++ t.name) :=
    congrArg words h
  have hs : '.' ∉ s.name.toList := s.dotless
  have ht : '.' ∉ t.name.toList := t.dotless
  rw [words_pair he, words_pair he', words_single hs, words_single ht] at hwords
  obtain ⟨hexchange, hname⟩ := List.cons.inj hwords
  exact ⟨String.toList_inj.mp hexchange, String.toList_inj.mp (List.cons.inj hname).1⟩

/-- **Routing.** A message under a key of one service reaches the queue of another one iff
    they are of one name. -/
theorem routes_iff {b : Broker (Message V)} (hb : b.bindings = (sharedBroker services).bindings)
    (hplain : ∀ s ∈ services, s.Plain) (ht : t ∈ services) {exchange exchange' key : String}
    (hexchange : exchange = requestExchange ∨ exchange = responseExchange)
    (hexchange' : exchange' = requestExchange ∨ exchange' = responseExchange)
    (hkey : s.IsKey key) :
    b.routes exchange key (listenerQueue exchange' t.name) = true ↔
      exchange = exchange' ∧ s.name = t.name := by
  have hdotless : ∀ exchange, exchange = requestExchange ∨ exchange = responseExchange →
      '.' ∉ exchange.toList := by
    rintro exchange (rfl | rfl)
    · decide
    · decide
  refine ⟨fun hroutes => ?_, ?_⟩
  · rw [Broker.routes, List.any_eq_true] at hroutes
    obtain ⟨x, hx, hroute⟩ := hroutes
    obtain ⟨rfl, hqueue, hmatch⟩ := of_decide_eq_true hroute
    rw [hb] at hx
    obtain ⟨u, hu, exchange'', hexchange'', rfl⟩ := mem_sharedBroker.mp hx
    obtain ⟨rfl, hname⟩ := listenerQueue_inj (hdotless _ hexchange'') (hdotless _ hexchange') hqueue
    obtain ⟨hstar, hhash⟩ := hplain u hu
    obtain ⟨m, hm, rfl⟩ := hkey
    refine ⟨rfl, ?_⟩
    rw [words_bindingKey, words_getRoutingKey hm, topicMatches_star_iff] at hmatch
    · rw [← hname]
      exact String.toList_inj.mp hmatch.symm
    · exact fun h => hstar (String.toList_inj.mp h)
    · exact fun h => hhash (String.toList_inj.mp h)
  · rintro ⟨rfl, hname⟩
    have hmem : ⟨exchange, bindingKey t.name, listenerQueue exchange t.name⟩ ∈ b.bindings := by
      rw [hb]
      exact mem_sharedBroker.mpr ⟨t, ht, exchange, hexchange, rfl⟩
    refine Broker.routes_of_mem hmem ?_
    rw [← hname]
    exact topicMatches_key hkey

end Routes

-- ============================================================================
-- The invariant
-- ============================================================================

/-- The message belongs to a call through a proxy of a service of the name. -/
def SharedTraffic.Belongs (services : List (Service Ty V)) (w : SharedTraffic V)
    (message : Message V) (name : String) : Prop :=
  ∃ (c : Nat) (call : Call V) (i : Nat) (s : Service Ty V),
    w.traffic.clients.calls[c]? = some call ∧ message.Of call ∧ w.owners[c]? = some i ∧
      services[i]? = some s ∧ s.name = name

structure SharedTraffic.Inv (services : List (Service Ty V)) (w : SharedTraffic V) : Prop where
  wf : w.traffic.clients.Wf
  bindings : w.traffic.broker.bindings = (sharedBroker services).bindings
  owners : w.owners.length = w.traffic.clients.calls.length
  holders : w.holders.length = w.traffic.deliveries.length
  keyed : ∀ (c : Nat) call, w.traffic.clients.calls[c]? = some call →
    ∃ (i : Nat) (s : Service Ty V), w.owners[c]? = some i ∧ services[i]? = some s ∧
      s.Keyed call ∧ s.Callable
  valid : ∀ process r stage, .response process r stage ∈ w.traffic.deliveries →
    stage.Valid w.traffic.clients process r
  waiting : ∀ t ∈ services, ∀ exchange, exchange = requestExchange ∨ exchange = responseExchange →
    ∀ m ∈ w.traffic.broker.queues (listenerQueue exchange t.name), w.Belongs services m t.name
  held : ∀ (n i : Nat) delivery, w.traffic.deliveries[n]? = some delivery →
    w.holders[n]? = some i → ∃ t, services[i]? = some t ∧
      w.Belongs services delivery.message t.name

section Inv

variable {services : List (Service Ty V)} {s t : Service Ty V} {w w' : SharedTraffic V}
  {message : Message V} {name : String}

/-- Calls stay what they are, and so does whose they are. -/
theorem SharedTraffic.Belongs.later (h : w.Belongs services message name)
    (hlater : w.traffic.clients.Later w'.traffic.clients)
    (howners : ∀ (c i : Nat), w.owners[c]? = some i → w'.owners[c]? = some i) :
    w'.Belongs services message name := by
  obtain ⟨c, call, i, s, hcall, hof, howner, hs, hname⟩ := h
  obtain ⟨call', hcall', -, hid, hrequest, -⟩ := hlater c call hcall
  refine ⟨c, call', i, s, hcall', ?_, howners c i howner, hs, hname⟩
  cases message with
  | request q => exact hof.trans hrequest.symm
  | response r =>
      have hfor : r.headers.correlationId = some call.correlationId := hof
      rw [← hid] at hfor
      exact hfor

/-- A new call belongs to the service of its proxy. -/
theorem SharedTraffic.Inv.execute (h : w.Inv services) {i process : Nat} {k : String}
    {m : MethodInfo Ty} {args : List (Option V)} {clients : Clients V}
    (hs : services[i]? = some s) (hcallable : s.Callable) (hm : m ∈ s.contract.methods)
    (hreg : w.traffic.clients.register process k (RemoteRequest.create m.name
      (args.map s.runtime.serializeObject)) (getRoutingKey s.contract m.name) = some clients) :
    SharedTraffic.Inv services ⟨{ w.traffic with clients }, w.owners ++ [i], w.holders⟩ := by
  obtain ⟨hwf, hlater, hcalls⟩ := Clients.register_spec h.wf (Option.some_ne_none _) hreg
  have hbelongs : ∀ {message : Message V} {name : String}, w.Belongs services message name →
      SharedTraffic.Belongs services ⟨{ w.traffic with clients }, w.owners ++ [i], w.holders⟩
        message name :=
    fun hb => hb.later hlater fun c j howner => List.getElem?_append_of_some howner
  refine ⟨hwf, h.bindings, ?_, h.holders, ?_,
    fun p r stage hd => (h.valid p r stage hd).later hlater,
    fun t ht exchange hexchange m hm => hbelongs (h.waiting t ht exchange hexchange m hm), ?_⟩
  · show (w.owners ++ [i]).length = clients.calls.length
    rw [hcalls, List.length_append, List.length_append, h.owners]
    rfl
  · intro c call hcall
    have hcall : clients.calls[c]? = some call := hcall
    rw [hcalls] at hcall
    rcases List.getElem?_append_singleton hcall with hcall | ⟨rfl, rfl⟩
    · obtain ⟨j, t, howner, ht⟩ := h.keyed c call hcall
      exact ⟨j, t, List.getElem?_append_of_some howner, ht⟩
    · refine ⟨i, s, ?_, hs, ⟨_, _, rfl, rfl, rfl, m, hm, rfl⟩, hcallable⟩
      show (w.owners ++ [i])[w.traffic.clients.calls.length]? = some i
      rw [← h.owners, List.getElem?_concat_length]
  · intro n j delivery hd hholder
    obtain ⟨t, ht, hb⟩ := h.held n j delivery hd hholder
    exact ⟨t, ht, hbelongs hb⟩

/-- A request that is sent goes to the queues of its service's name only. -/
theorem SharedTraffic.Inv.send (h : w.Inv services) (hplain : ∀ s ∈ services, s.Plain)
    {awaiter : Nat} {call₀ : Call V} (hcall₀ : w.traffic.clients.calls[awaiter]? = some call₀) :
    SharedTraffic.Inv services { w with traffic := { w.traffic with
      clients := w.traffic.clients.markSent awaiter call₀
      broker := rabbitSend w.traffic.broker requestExchange (call₀.request.headers.getD {})
        (.request call₀.request) } } := by
  obtain ⟨hwf, hlater⟩ := Clients.markSent_spec h.wf hcall₀
  obtain ⟨i₀, s₀, howner₀, hs₀, hkeyed₀, hcallable₀⟩ := h.keyed awaiter call₀ hcall₀
  refine ⟨hwf, h.bindings, ?_, h.holders, ?_,
    fun p r stage hd => (h.valid p r stage hd).later hlater, ?_, ?_⟩
  · show w.owners.length = (w.traffic.clients.calls.set awaiter _).length
    rw [List.length_set, h.owners]
  · intro c call hcall
    rcases List.getElem?_set_cases hcall with ⟨rfl, rfl⟩ | ⟨-, hcall⟩
    · exact ⟨i₀, s₀, howner₀, hs₀, hkeyed₀, hcallable₀⟩
    · exact h.keyed c call hcall
  · intro t ht exchange hexchange m hm
    rcases Broker.mem_publish.mp hm with hm | ⟨hroutes, rfl⟩
    · exact (h.waiting t ht exchange hexchange m hm).later hlater fun _ _ ho => ho
    · obtain ⟨headers, key, hheaders, -, hkey, hiskey⟩ := hkeyed₀
      rw [hheaders, Option.getD_some, hkey, Option.getD_some,
        routes_iff h.bindings hplain ht (Or.inl rfl) hexchange hiskey] at hroutes
      have hbelongs : w.Belongs services (.request call₀.request) t.name :=
        ⟨awaiter, call₀, i₀, s₀, hcall₀, rfl, howner₀, hs₀, hroutes.2⟩
      exact hbelongs.later hlater fun _ _ ho => ho
  · intro n j delivery hd hholder
    obtain ⟨t, ht, hb⟩ := h.held n j delivery hd hholder
    exact ⟨t, ht, hb.later hlater fun _ _ ho => ho⟩

/-- A listener gets what waits in its queue. -/
theorem SharedTraffic.Inv.deliver (h : w.Inv services) {i n : Nat} {exchange : String}
    {broker : Broker (Message V)} {delivery : Delivery V} (hs : services[i]? = some s)
    (hexchange : exchange = requestExchange ∨ exchange = responseExchange)
    (htake : w.traffic.broker.take (listenerQueue exchange s.name) n =
      some (delivery.message, broker))
    (hvalid : ∀ process r stage, delivery = .response process r stage →
      stage.Valid w.traffic.clients process r) :
    SharedTraffic.Inv services ⟨{ w.traffic with
      broker, deliveries := w.traffic.deliveries ++ [delivery] }, w.owners, w.holders ++ [i]⟩ := by
  obtain ⟨hmem, hback⟩ := Broker.mem_of_take htake
  have hbelongs := h.waiting s (List.mem_of_getElem? hs) exchange hexchange _ hmem
  refine ⟨h.wf, (Broker.take_bindings htake).trans h.bindings, h.owners, ?_, h.keyed, ?_,
    fun t ht exchange hexchange m hm => h.waiting t ht exchange hexchange m (hback _ m hm), ?_⟩
  · show (w.holders ++ [i]).length = (w.traffic.deliveries ++ [delivery]).length
    rw [List.length_append, List.length_append, h.holders]
    rfl
  · intro process r stage hd
    rcases List.mem_append.mp hd with hd | hd
    · exact h.valid process r stage hd
    · exact hvalid process r stage (List.mem_singleton.mp hd).symm
  · intro m j delivery' hd hholder
    have hd : (w.traffic.deliveries ++ [delivery])[m]? = some delivery' := hd
    have hholder : (w.holders ++ [i])[m]? = some j := hholder
    rcases List.getElem?_append_singleton hd with hd | ⟨rfl, rfl⟩
    · rcases List.getElem?_append_singleton hholder with hholder | ⟨rfl, -⟩
      · exact h.held m j delivery' hd hholder
      · rw [h.holders, List.getElem?_eq_none (Nat.le_refl _)] at hd
        cases hd
    · rw [← h.holders, List.getElem?_concat_length] at hholder
      obtain rfl := Option.some.inj hholder
      exact ⟨s, hs, hbelongs⟩

/-- One delivery is handled a step further. -/
theorem SharedTraffic.held_set {n : Nat} {delivery delivery' : Delivery V}
    (hheld : ∀ (n i : Nat) delivery, w.traffic.deliveries[n]? = some delivery →
      w.holders[n]? = some i → ∃ t, services[i]? = some t ∧
        w.Belongs services delivery.message t.name)
    (hd : w.traffic.deliveries[n]? = some delivery) (hsame : delivery'.message = delivery.message)
    {m i : Nat} {delivery'' : Delivery V}
    (hd' : (w.traffic.deliveries.set n delivery')[m]? = some delivery'')
    (hholder : w.holders[m]? = some i) :
    ∃ t, services[i]? = some t ∧ w.Belongs services delivery''.message t.name := by
  rcases List.getElem?_set_cases hd' with ⟨rfl, rfl⟩ | ⟨-, hd'⟩
  · rw [hsame]
    exact hheld _ i delivery hd hholder
  · exact hheld m i delivery'' hd' hholder

/-- What the handler sends goes to the queues of the name of the service that the request
    was for. -/
theorem SharedTraffic.Inv.replies (h : w.Inv services) (hplain : ∀ s ∈ services, s.Plain)
    {c : Nat} {call : Call V} (hcall : w.traffic.clients.calls[c]? = some call)
    {sent : List (RemoteResponse V)} (hsent : ∀ r ∈ sent, r.Echoes call.request)
    {b : Broker (Message V)} (hb : b.bindings = (sharedBroker services).bindings)
    (hwaiting : ∀ t ∈ services, ∀ exchange,
      exchange = requestExchange ∨ exchange = responseExchange →
        ∀ m ∈ b.queues (listenerQueue exchange t.name), w.Belongs services m t.name) :
    ∀ t ∈ services, ∀ exchange, exchange = requestExchange ∨ exchange = responseExchange →
      ∀ m ∈ (sent.foldl (fun broker r => rabbitSend broker responseExchange r.headers
        (.response r)) b).queues (listenerQueue exchange t.name), w.Belongs services m t.name := by
  induction sent generalizing b with
  | nil => exact hwaiting
  | cons r sent ih =>
      refine ih (fun r' hr' => hsent r' (List.mem_cons_of_mem r hr')) hb ?_
      intro t ht exchange hexchange m hm
      rcases Broker.mem_publish.mp hm with hm | ⟨hroutes, rfl⟩
      · exact hwaiting t ht exchange hexchange m hm
      · obtain ⟨i, s, howner, hs, ⟨headers, key, hheaders, hid, hkey, hiskey⟩, -⟩ :=
          h.keyed c call hcall
        obtain ⟨headers', hheaders', hid', hkey'⟩ := hsent r List.mem_cons_self
        obtain rfl := Option.some.inj (hheaders.symm.trans hheaders')
        rw [hkey', hkey, Option.getD_some,
          routes_iff hb hplain ht (Or.inr rfl) hexchange hiskey] at hroutes
        exact ⟨c, call, i, s, hcall, hid'.trans hid, howner, hs, hroutes.2⟩

/-- The handler runs. -/
theorem SharedTraffic.Inv.handleRequest (h : w.Inv services) (hplain : ∀ s ∈ services, s.Plain)
    {n : Nat} {q : RemoteRequest} (hd : w.traffic.deliveries[n]? = some (.request q none))
    (implementation : MethodInfo Ty → List (Option V) → Invocation V) (acknowledged : Bool) :
    SharedTraffic.Inv services { w with traffic := { w.traffic with
      broker := ((s.handler implementation).handleRequest q).sent.foldl
        (fun broker r => rabbitSend broker responseExchange r.headers (.response r))
          w.traffic.broker
      deliveries := w.traffic.deliveries.set n (.request q (some acknowledged)) } } := by
  obtain ⟨i, hholder⟩ : ∃ i, w.holders[n]? = some i := by
    have hlt := (List.getElem?_eq_some_iff.mp hd).1
    rw [← h.holders] at hlt
    exact ⟨_, List.getElem?_eq_getElem hlt⟩
  obtain ⟨-, -, c, call, -, -, hcall, rfl, -⟩ := h.held n i _ hd hholder
  refine ⟨h.wf, (bindings_replies _ _).trans h.bindings, h.owners, ?_, h.keyed, ?_, ?_, ?_⟩
  · show w.holders.length = (w.traffic.deliveries.set n _).length
    rw [List.length_set, h.holders]
  · intro process r stage hmem
    rcases List.mem_or_eq_of_mem_set hmem with hmem | heq
    · exact h.valid process r stage hmem
    · cases heq
  · intro t ht exchange hexchange m hm
    have hsent : ∀ r ∈ ((s.handler implementation).handleRequest call.request).sent,
        r.Echoes call.request := fun r hr => mem_handleRequest_sent hr
    exact h.replies hplain hcall hsent h.bindings h.waiting t ht exchange hexchange m hm
  · intro m j delivery hd' hholder'
    have hsame : (.request call.request (some acknowledged) : Delivery V).message =
        (.request call.request none : Delivery V).message := rfl
    exact SharedTraffic.held_set h.held hd hsame hd' hholder'

theorem Clients.handleResponse_length {clients clients' : Clients V} {process : Nat}
    {r : RemoteResponse V} {stage stage' : Stage} (h : clients.Wf)
    (hvalid : stage.Valid clients process r)
    (hstep : clients.handleResponse process r stage = some (clients', stage')) :
    clients'.calls.length = clients.calls.length := by
  rcases Clients.handleResponse_cases h hvalid hstep with ⟨rfl, -⟩ |
    ⟨awaiter, call, -, -, -, -, -, -, rfl⟩ | ⟨awaiter, call, threw, -, -, -, -, -, -, rfl⟩
  · rfl
  · exact List.length_set
  · rfl

/-- A step of `HandleResponse` leaves it to its calls whose they are. -/
theorem SharedTraffic.Inv.handleResponse (h : w.Inv services) {n process : Nat}
    {r : RemoteResponse V} {stage stage' : Stage} {clients : Clients V}
    (hd : w.traffic.deliveries[n]? = some (.response process r stage))
    (hhandle : w.traffic.clients.handleResponse process r stage = some (clients, stage')) :
    SharedTraffic.Inv services { w with traffic := { w.traffic with
      clients
      deliveries := w.traffic.deliveries.set n (.response process r stage') } } := by
  have hvalid := h.valid process r stage (List.mem_of_getElem? hd)
  obtain ⟨hwf, hlater, hvalid'⟩ := Clients.handleResponse_spec h.wf hvalid hhandle
  have hlength := Clients.handleResponse_length h.wf hvalid hhandle
  refine ⟨hwf, h.bindings, ?_, ?_, ?_, ?_, ?_, ?_⟩
  · show w.owners.length = clients.calls.length
    rw [hlength, h.owners]
  · show w.holders.length = (w.traffic.deliveries.set n _).length
    rw [List.length_set, h.holders]
  · intro c call hcall
    obtain ⟨old, hold, hid, hrequest, -⟩ := Clients.handleResponse_calls h.wf hvalid hhandle hcall
    obtain ⟨i, s, howner, hs, ⟨headers, key, hheaders, hid', hkey⟩, hcallable⟩ := h.keyed c old hold
    rw [← hrequest] at hheaders
    rw [← hid] at hid'
    exact ⟨i, s, howner, hs, ⟨headers, key, hheaders, hid', hkey⟩, hcallable⟩
  · intro process' r' stage'' hmem
    rcases List.mem_or_eq_of_mem_set hmem with hmem | heq
    · exact (h.valid process' r' stage'' hmem).later hlater
    · cases heq
      exact hvalid'
  · intro t ht exchange hexchange m hm
    exact (h.waiting t ht exchange hexchange m hm).later hlater fun _ _ ho => ho
  · intro m j delivery hd' hholder
    have hsame : (.response process r stage' : Delivery V).message =
        (.response process r stage : Delivery V).message := rfl
    obtain ⟨t, ht, hb⟩ := SharedTraffic.held_set h.held hd hsame hd' hholder
    exact ⟨t, ht, hb.later hlater fun _ _ ho => ho⟩

theorem SharedTraffic.step_eq_some {l : SharedLabel Ty V} (h : w.step services l = some w') :
    ∃ s traffic, services[l.service]? = some s ∧ w.Allows l.service l.label ∧
      w.traffic.step s l.label = some traffic ∧ w' = w.record l.service traffic l.label := by
  simp only [SharedTraffic.step] at h
  split at h
  · cases h
  · rename_i s hs
    split at h
    · rename_i hallows
      obtain ⟨traffic, htraffic, rfl⟩ := Option.map_eq_some_iff.mp h
      exact ⟨s, traffic, hs, hallows, htraffic, rfl⟩
    · cases h

/-- A proxy through which a call has been made lets a method through. -/
theorem callable_of_execute {traffic traffic' : Traffic V} {process method : Nat} {k : String}
    {args : List (Option V)}
    (h : traffic.step s (.execute process k method args) = some traffic') : s.Callable := by
  simp only [Traffic.step] at h
  split at h
  · cases h
  · rename_i m hm
    split at h
    · cases h
    · rename_i request key hproxy
      obtain ⟨htask, hgeneric, -, -⟩ := proxyRequest_eq_ok.mp hproxy
      exact ⟨m, List.mem_of_getElem? hm, htask, hgeneric⟩

theorem SharedTraffic.Inv.step (h : w.Inv services) (hplain : ∀ s ∈ services, s.Plain)
    {l : SharedLabel Ty V} (hstep : w.step services l = some w') : w'.Inv services := by
  obtain ⟨s, traffic, hs, hallows, htraffic, rfl⟩ := SharedTraffic.step_eq_some hstep
  obtain ⟨i, l⟩ := l
  rcases Traffic.step_cases htraffic with
    ⟨process, k, method, args, m, clients, rfl, hm, hreg, rfl⟩ |
    ⟨awaiter, call, rfl, hcall, -, rfl⟩ | ⟨n, q, broker, rfl, htake, rfl⟩ |
    ⟨process, n, r, broker, rfl, htake, rfl⟩ |
    ⟨delivery, implementation, q, acknowledged, rfl, hd, rfl⟩ |
    ⟨delivery, process, r, stage, stage', clients, rfl, hd, hhandle, rfl⟩
  · exact h.execute hs (callable_of_execute htraffic) hm hreg
  · exact h.send hplain hcall
  · have htake : w.traffic.broker.take (listenerQueue requestExchange s.name) n =
        some ((.request q none : Delivery V).message, broker) := htake
    refine h.deliver hs (Or.inl rfl) htake ?_
    intro process r stage heq
    cases heq
  · have htake : w.traffic.broker.take (listenerQueue responseExchange s.name) n =
        some ((.response process r .get : Delivery V).message, broker) := htake
    refine h.deliver hs (Or.inr rfl) htake ?_
    intro process' r' stage heq
    cases heq
    trivial
  · exact h.handleRequest hplain hd implementation acknowledged
  · exact h.handleResponse hd hhandle

theorem queues_sharedBroker (queue : String) :
    (sharedBroker services : Broker (Message V)).queues queue = [] := by
  have hfold : ∀ (services : List (Service Ty V)) (b : Broker (Message V)),
      (services.foldl (fun b s => startListener (startListener b requestExchange s.name)
        responseExchange s.name) b).queues = b.queues := by
    intro services
    induction services with
    | nil => exact fun b => rfl
    | cons s services ih =>
        intro b
        rw [List.foldl_cons, ih, startListener, startListener, Broker.queues_bind,
          Broker.queues_bind]
  rw [sharedBroker, hfold]
  rfl

theorem SharedTraffic.inv_init : (SharedTraffic.init services).Inv services where
  wf := Clients.wf_empty
  bindings := rfl
  owners := rfl
  holders := rfl
  keyed c call hcall := by cases hcall
  valid process r stage hmem := by cases hmem
  waiting t ht exchange hexchange m hm := by
    have hm : m ∈ (sharedBroker services).queues (listenerQueue exchange t.name) := hm
    rw [queues_sharedBroker] at hm
    cases hm
  held n i delivery hd := by cases hd

/-- Names are told apart by the queues, so a delivery is held where its call was made. -/
theorem SharedTraffic.Inv.isolated (h : w.Inv services)
    (hnames : ∀ (i j : Nat) (s t : Service Ty V), services[i]? = some s → services[j]? = some t →
      s.Callable → s.name = t.name → i = j) : w.Isolated := by
  intro n i delivery hd hholder
  obtain ⟨t, ht, hbelongs⟩ := h.held n i delivery hd hholder
  obtain ⟨c', call', i', s, hcall', hof', howner, hs, hname⟩ := hbelongs
  refine ⟨⟨c', call', hcall', hof'⟩, fun c call hcall hof => ?_⟩
  -- a message is of one call only
  have hsame : c = c' := by
    cases hmessage : delivery.message with
    | request q =>
        rw [hmessage] at hof hof'
        exact h.wf.eq_of_request hcall hcall' (hof.symm.trans hof')
    | response r =>
        rw [hmessage] at hof hof'
        exact h.wf.distinct c c' call call' hcall hcall' (Option.some.inj (hof.symm.trans hof'))
  subst hsame
  obtain ⟨j, s', howner', hs', -, hcallable⟩ := h.keyed c call' hcall'
  obtain rfl : i' = j := Option.some.inj (howner.symm.trans howner')
  obtain rfl : s = s' := Option.some.inj (hs.symm.trans hs')
  rw [howner, hnames i' i s t hs ht hcallable hname]

end Inv

-- ============================================================================
-- Isolation
-- ============================================================================

section Isolation

variable {services : List (Service Ty V)} {s t : Service Ty V}

theorem SharedTraffic.Inv.of_reachable (hplain : ∀ s ∈ services, s.Plain) {w : SharedTraffic V}
    (h : Transition.Reachable (SharedTraffic.step services) (SharedTraffic.init services) w) :
    w.Inv services :=
  h.invariant SharedTraffic.inv_init fun _ _ _ hinv hstep => hinv.step hplain hstep

/-- The first request that is sent waits for the namesakes of its service. -/
theorem queues_namesake (hplain : ∀ s ∈ services, s.Plain) {j : Nat}
    (ht : services[j]? = some t) (hname : s.name = t.name) {call : Call V} (hcall : s.Keyed call) :
    (rabbitSend (sharedBroker services) requestExchange (call.request.headers.getD {})
      (.request call.request)).queues (listenerQueue requestExchange t.name) =
        [.request call.request] := by
  obtain ⟨headers, key, hheaders, -, hkey, hiskey⟩ := hcall
  have hroutes : (sharedBroker services : Broker (Message V)).routes requestExchange key
      (listenerQueue requestExchange t.name) = true :=
    (routes_iff rfl hplain (List.mem_of_getElem? ht) (Or.inl rfl) (Or.inl rfl) hiskey).mpr
      ⟨rfl, hname⟩
  simp only [rabbitSend, Broker.publish, hheaders, Option.getD_some, hkey, hroutes, if_true,
    queues_sharedBroker, List.nil_append]

/-- A request through a proxy of the service is handed to a listener of its namesake. -/
theorem SharedTraffic.crossed (hplain : ∀ s ∈ services, s.Plain) {i j : Nat}
    (hs : services[i]? = some s) (ht : services[j]? = some t) (hcallable : s.Callable)
    (hname : s.name = t.name) :
    ∃ w call, Transition.Reachable (SharedTraffic.step services) (SharedTraffic.init services) w ∧
      w.traffic.clients.calls[0]? = some call ∧ w.owners[0]? = some i ∧
      w.traffic.deliveries[0]? = some (.request call.request none) ∧ w.holders[0]? = some j := by
  obtain ⟨m, hm, htask, hgeneric⟩ := hcallable
  obtain ⟨method, hmethod⟩ := List.mem_iff_getElem?.mp hm
  let args : List (Option V) := m.parameters.map fun _ => none
  let key := getRoutingKey s.contract m.name
  let request := RemoteRequest.create m.name (args.map s.runtime.serializeObject)
  let call : Call V := ⟨0, "", request.setHeaders "" key, false, none⟩
  have hproxy : proxyRequest s.runtime s.contract m args = .ok (request, key) :=
    proxyRequest_eq_ok.mpr ⟨htask, hgeneric, rfl, rfl⟩
  obtain ⟨clients, hreg, hcalls⟩ : ∃ clients : Clients V,
      Clients.empty.register 0 "" request key = some clients ∧ clients.calls = [call] :=
    ⟨_, rfl, rfl⟩
  let w₁ : SharedTraffic V := ⟨⟨clients, sharedBroker services, []⟩, [i], []⟩
  have hexecute : (SharedTraffic.init services).step services ⟨i, .execute 0 "" method args⟩ =
      some w₁ := by
    simp only [SharedTraffic.step, hs, SharedTraffic.Allows, if_true, Traffic.step, hmethod, hproxy]
    rw [SharedTraffic.init, hreg]
    rfl
  let broker := rabbitSend (sharedBroker services) requestExchange (call.request.headers.getD {})
    (.request call.request)
  let w₂ : SharedTraffic V := ⟨⟨clients.markSent 0 call, broker, []⟩, [i], []⟩
  have hsend : w₁.step services ⟨i, .send 0⟩ = some w₂ := by
    have hcall : clients.calls[0]? = some call := by rw [hcalls]; rfl
    simp only [SharedTraffic.step, hs, SharedTraffic.Allows, w₁, List.getElem?_cons_zero, if_true,
      Traffic.step, hcall]
    rfl
  have hkeyed : s.Keyed call := ⟨_, key, rfl, rfl, rfl, m, hm, rfl⟩
  have hqueue : broker.queues (listenerQueue requestExchange t.name) = [.request call.request] :=
    queues_namesake hplain ht hname hkeyed
  obtain ⟨broker', htake⟩ : ∃ broker', broker.take (listenerQueue requestExchange t.name) 0 =
      some (.request call.request, broker') := by
    simp [Broker.take, hqueue]
  let w₃ : SharedTraffic V :=
    ⟨⟨clients.markSent 0 call, broker', [.request call.request none]⟩, [i], [j]⟩
  have hdeliver : w₂.step services ⟨j, .deliverRequest 0⟩ = some w₃ := by
    simp only [SharedTraffic.step, ht, SharedTraffic.Allows, if_true, Traffic.step, w₂, htake]
    rfl
  have hreached : Transition.Reachable (SharedTraffic.step services)
      (SharedTraffic.init services) w₃ :=
    ⟨_, Transition.run_cons_eq_some.mpr ⟨w₁, hexecute, Transition.run_cons_eq_some.mpr
      ⟨w₂, hsend, Transition.run_single hdeliver⟩⟩⟩
  refine ⟨w₃, { call with sent := true }, hreached, ?_, rfl, rfl, rfl⟩
  show (clients.calls.set 0 { call with sent := true })[0]? = _
  rw [hcalls]
  rfl

/-- **Namesakes.** In no run does a listener get a message of another service's call iff no
    other service has the name of one whose proxies let a method through. -/
theorem isolated_iff (hplain : ∀ s ∈ services, s.Plain) :
    (∀ w, Transition.Reachable (SharedTraffic.step services) (SharedTraffic.init services) w →
      w.Isolated) ↔
    ∀ (i j : Nat) (s t : Service Ty V), services[i]? = some s → services[j]? = some t →
      s.Callable → s.name = t.name → i = j := by
  refine ⟨fun hisolated i j s t hs ht hcallable hname => ?_, fun hnames w hw => ?_⟩
  · obtain ⟨w, call, hw, hcall, howner, hd, hholder⟩ :=
      SharedTraffic.crossed hplain hs ht hcallable hname
    have howner' := (hisolated w hw 0 j _ hd hholder).2 0 call hcall rfl
    exact Option.some.inj (howner.symm.trans howner')
  · exact (SharedTraffic.Inv.of_reachable hplain hw).isolated hnames

end Isolation

section TestInterface

def derivedService : Service String Bool where
  runtime := booleanRuntime
  contract := derivedInterface
  dotless := by decide
  dotlessMethods := by decide

def namesakeType : ClrType := { testInterfaceType with ns := "Milde.Remoting" }

/-- An `ITestInterface` of another namespace. -/
def namesakeInterface : ServiceInterface String where
  type := namesakeType
  declared := [{ asyncBooleanMethod with declaringType := namesakeType }]
  inherited := []
  declaredHere := by simp
  inheritedElsewhere := by simp
  distinct := by decide

def namesakeService : Service String Bool where
  runtime := booleanRuntime
  contract := namesakeInterface
  dotless := by decide
  dotlessMethods := by decide

theorem isolated_iff_testService :
    (∀ w, Transition.Reachable (SharedTraffic.step [testService, derivedService])
      (SharedTraffic.init [testService, derivedService]) w → w.Isolated) ∧
    ¬ ∀ w, Transition.Reachable (SharedTraffic.step [testService, namesakeService])
      (SharedTraffic.init [testService, namesakeService]) w → w.Isolated := by
  have hcallable : testService.Callable := ⟨asyncBooleanMethod, by decide, rfl, rfl⟩
  refine ⟨(isolated_iff ?_).mpr ?_, fun h => ?_⟩
  · simp only [List.forall_mem_cons, Service.Plain]
    decide
  · rintro (_ | _ | i) (_ | _ | j) s t hs ht - hname
    · rfl
    · cases hs; cases ht; revert hname; decide
    · cases ht
    · cases hs; cases ht; revert hname; decide
    · rfl
    · cases ht
    · cases hs
    · cases hs
    · cases hs
  · have hplain : ∀ s ∈ [testService, namesakeService], s.Plain := by
      simp only [List.forall_mem_cons, Service.Plain]
      decide
    have heq : 0 = 1 := (isolated_iff hplain).mp h 0 1 testService namesakeService rfl rfl
      hcallable rfl
    cases heq

end TestInterface

end Milde.Remoting
