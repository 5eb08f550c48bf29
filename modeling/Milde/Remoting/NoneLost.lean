/-
  Milde.Remoting.NoneLost

  Which runs lose no answer.

  A request is handed out once and becomes one response, which is handed out once, so of
  every call that has been sent there is at most one message (`Traffic.Single`).  One that
  goes astray is the last of its call, which makes the condition `Routed` exact.
-/
import Milde.Remoting.Rabbit

namespace Milde.Remoting

open TopicExchange

variable {Ty V : Type}

-- ============================================================================
-- Counting messages
-- ============================================================================

def Message.correlationId : Message V → Option String
  | .request q => q.headers.bind MessageHeaders.correlationId
  | .response r => r.headers.correlationId

/-- The message belongs to the call with the id. -/
def Message.isOf (k : String) (m : Message V) : Bool := m.correlationId = some k

/-- So does the message that the delivery holds: a request until it is handled, a response
    for ever. -/
def Delivery.isOf (k : String) : Delivery V → Bool
  | .request q none => Message.isOf k (.request q : Message V)
  | .request _ (some _) => false
  | .response _ r _ => Message.isOf k (.response r)

/-- The messages of a call in the two queues and the deliveries. -/
def Traffic.copies (s : Service Ty V) (w : Traffic V) (k : String) : Nat :=
  (w.broker.queues (listenerQueue requestExchange s.name)).countP (Message.isOf k) +
    (w.broker.queues (listenerQueue responseExchange s.name)).countP (Message.isOf k) +
    w.deliveries.countP (Delivery.isOf k)

/-- The calls with an id that have been sent. -/
def Clients.sentOf (c : Clients V) (k : String) : Nat :=
  c.calls.countP fun call => call.sent && decide (call.correlationId = k)

/-- The delivery has a response for the call, with whichever client. -/
def Delivery.Brings (call : Call V) : Delivery V → Prop
  | .request _ _ => False
  | .response _ r _ => r.For call

/-- No call has more messages than it has sent, and one that has completed still has its
    response with a client. -/
structure Traffic.Single (s : Service Ty V) (w : Traffic V) : Prop where
  copies : ∀ k, w.copies s k ≤ w.clients.sentOf k
  answered : ∀ (i : Nat) call, w.clients.calls[i]? = some call → call.completion ≠ none →
    ∃ d ∈ w.deliveries, d.Brings call

section Counting

variable {s : Service Ty V} {w w' : Traffic V} {call : Call V} {k : String}

/-- Ids are not given out twice. -/
theorem Clients.Wf.sentOf_le {c : Clients V} (h : c.Wf) (k : String) : c.sentOf k ≤ 1 := by
  have hnodup : (c.calls.map Call.correlationId).Nodup := by
    rw [List.nodup_iff_getElem?_ne_getElem?]
    intro i j hij hj heq
    rw [List.length_map] at hj
    rw [List.getElem?_map, List.getElem?_map, List.getElem?_eq_getElem (by omega),
      List.getElem?_eq_getElem hj, Option.map_some, Option.map_some, Option.some.injEq] at heq
    have := h.distinct i j _ _ (List.getElem?_eq_getElem (by omega))
      (List.getElem?_eq_getElem hj) heq
    omega
  calc c.sentOf k
      ≤ c.calls.countP fun call => decide (call.correlationId = k) :=
        List.countP_mono_left fun call _ hcall => (Bool.and_eq_true_iff.mp hcall).2
    _ = (c.calls.map Call.correlationId).count k := by
        rw [List.count_eq_countP, List.countP_map]
        rfl
    _ ≤ 1 := List.nodup_iff_count_le_one.mp hnodup k

/-- A call whose id has a message has been sent. -/
theorem Clients.Wf.sent_of_sentOf {c : Clients V} (h : c.Wf) {i : Nat}
    (hcall : c.calls[i]? = some call) (hpos : 0 < c.sentOf call.correlationId) :
    call.sent = true := by
  obtain ⟨call', hmem, hsent⟩ := List.countP_pos_iff.mp hpos
  obtain ⟨hsent, hid⟩ := Bool.and_eq_true_iff.mp hsent
  obtain ⟨j, hj⟩ := List.mem_iff_getElem?.mp hmem
  obtain rfl : i = j := h.distinct i j call call' hcall hj (of_decide_eq_true hid).symm
  obtain rfl : call = call' := Option.some.inj (hcall.symm.trans hj)
  exact hsent

theorem Message.isOf_request
    (hid : call.request.headers.bind MessageHeaders.correlationId = some call.correlationId) :
    Message.isOf call.correlationId (.request call.request : Message V) = true :=
  decide_eq_true hid

theorem Message.isOf_response {r : RemoteResponse V} (hfor : r.For call) :
    Message.isOf call.correlationId (.response r) = true := decide_eq_true hfor

theorem Delivery.isOf_of_asks {d : Delivery V} (h : d.Asks call)
    (hid : (call.request.headers.bind MessageHeaders.correlationId) = some call.correlationId) :
    d.isOf call.correlationId = true := by
  cases d with
  | request q acknowledged =>
      obtain ⟨rfl, rfl⟩ := h
      exact Message.isOf_request hid
  | response process r stage => exact h.elim

theorem Delivery.isOf_of_brings {d : Delivery V} (h : d.Brings call) :
    d.isOf call.correlationId = true := by
  cases d with
  | request q acknowledged => exact h.elim
  | response process r stage => exact Message.isOf_response h

theorem Delivery.brings_of_answers {d : Delivery V} (h : d.Answers call) : d.Brings call := by
  cases d with
  | request q acknowledged => exact h
  | response process r stage => exact h.2.1

theorem Clients.Wf.request_id {c : Clients V} (h : c.Wf) {i : Nat}
    (hcall : c.calls[i]? = some call) :
    call.request.headers.bind MessageHeaders.correlationId = some call.correlationId := by
  obtain ⟨headers, hheaders, hid⟩ := h.addressed i call hcall
  rw [hheaders]
  exact hid

/-- Two calls with one request are one call. -/
theorem Clients.Wf.eq_of_request {c : Clients V} (h : c.Wf) {i j : Nat} {call call' : Call V}
    (hcall : c.calls[i]? = some call) (hcall' : c.calls[j]? = some call')
    (hreq : call.request = call'.request) : i = j := by
  have hid := h.request_id hcall
  have hid' := h.request_id hcall'
  rw [hreq] at hid
  exact h.distinct i j call call' hcall hcall' (Option.some.inj (hid.symm.trans hid'))

/-- The queues of the two exchanges are two. -/
theorem listenerQueue_ne {exchange exchange' name : String} (h : exchange ≠ exchange') :
    listenerQueue exchange name ≠ listenerQueue exchange' name := by
  intro heq
  have heq : (exchange ++ "." ++ name).toList = (exchange' ++ "." ++ name).toList :=
    congrArg String.toList heq
  simp only [String.toList_append, List.append_cancel_right_eq] at heq
  exact h (String.toList_inj.mp heq)

/-- A message of one exchange does not reach the queue of another. -/
theorem queues_rabbitSend_of_ne {b : Broker (Message V)} {exchange exchange' : String}
    (hb : b.bindings = (Traffic.init s).broker.bindings) (h : exchange ≠ exchange')
    (headers : MessageHeaders) (m : Message V) :
    (rabbitSend b exchange headers m).queues (listenerQueue exchange' s.name) =
      b.queues (listenerQueue exchange' s.name) := by
  have hown : ∀ x ∈ (Traffic.init s).broker.bindings,
      x.queue = listenerQueue x.exchange s.name := by
    intro x hx
    rcases Broker.mem_bind.mp hx with hx | rfl
    · rcases Broker.mem_bind.mp hx with hx | rfl
      · cases hx
      · rfl
    · rfl
  apply Broker.queues_publish_of_not
  rw [Broker.routes, List.any_eq_false]
  intro x hx hroutes
  obtain ⟨rfl, hqueue, -⟩ := of_decide_eq_true hroutes
  rw [hb] at hx
  exact listenerQueue_ne h ((hown x hx).symm.trans hqueue)

theorem requestExchange_ne : requestExchange ≠ responseExchange := by decide

end Counting

-- ============================================================================
-- One message at most
-- ============================================================================

section Single

variable {s : Service Ty V} {w w' : Traffic V} {call : Call V} {k : String}

/-- A new call has no message yet. -/
theorem Traffic.Single.execute (hs : w.Single s) {process : Nat} {request : RemoteRequest}
    {id key : String} {clients : Clients V}
    (hcalls : clients.calls = w.clients.calls ++
      [⟨process, id, request.setHeaders id key, false, none⟩]) :
    Traffic.Single s { w with clients } := by
  refine ⟨fun k => ?_, ?_⟩
  · have hsame : clients.sentOf k = w.clients.sentOf k := by
      rw [Clients.sentOf, hcalls, List.countP_append, List.countP_singleton]
      rfl
    show w.copies s k ≤ clients.sentOf k
    rw [hsame]
    exact hs.copies k
  · intro i call hcall hdone
    have hcall : clients.calls[i]? = some call := hcall
    rw [hcalls] at hcall
    rcases List.getElem?_append_singleton hcall with hcall | ⟨-, rfl⟩
    · exact hs.answered i call hcall hdone
    · exact absurd rfl hdone

/-- A call that sends its request had no message before. -/
theorem Traffic.Single.send (h : w.Inv s) (hs : w.Single s) {awaiter : Nat}
    (hcall : w.clients.calls[awaiter]? = some call) (hunsent : call.sent = false) :
    Traffic.Single s { w with
      clients := w.clients.markSent awaiter call
      broker := rabbitSend w.broker requestExchange (call.request.headers.getD {})
        (.request call.request) } := by
  have hid := h.wf.request_id hcall
  refine ⟨fun k => ?_, ?_⟩
  · have hsent := List.countP_set_add
      (p := fun c : Call V => c.sent && decide (c.correlationId = k))
      { call with sent := true } hcall
    simp only [hunsent, Bool.false_and, Bool.false_eq_true, if_false, Bool.true_and] at hsent
    have hqueue : ((rabbitSend w.broker requestExchange (call.request.headers.getD {})
        (.request call.request)).queues (listenerQueue requestExchange s.name)).countP
          (Message.isOf k) ≤
        (w.broker.queues (listenerQueue requestExchange s.name)).countP (Message.isOf k) +
          (if Message.isOf k (.request call.request : Message V) then 1 else 0) :=
      Broker.countP_publish_le _
    have hisOf : Message.isOf k (.request call.request : Message V) =
        decide (call.correlationId = k) := by
      simp only [Message.isOf, Message.correlationId, hid, Option.some.injEq]
    have hold := hs.copies k
    rw [hisOf] at hqueue
    simp only [Traffic.copies, Clients.sentOf, Clients.markSent] at hold ⊢
    rw [queues_rabbitSend_of_ne h.bindings requestExchange_ne]
    omega
  · intro i other hother hdone
    rcases List.getElem?_set_cases hother with ⟨rfl, rfl⟩ | ⟨-, hother⟩
    · exact hs.answered awaiter call hcall hdone
    · exact hs.answered i other hother hdone

/-- A message goes from its queue to a delivery that holds it. -/
theorem Traffic.Single.deliver (hs : w.Single s) {exchange : String}
    (hexchange : exchange = requestExchange ∨ exchange = responseExchange) {n : Nat}
    {m : Message V} {broker : Broker (Message V)} {d : Delivery V}
    (htake : w.broker.take (listenerQueue exchange s.name) n = some (m, broker))
    (hd : ∀ k, d.isOf k = Message.isOf k m) :
    Traffic.Single s { w with
      broker
      deliveries := w.deliveries ++ [d] } := by
  refine ⟨fun k => ?_, ?_⟩
  · have htaken := Broker.countP_take (Message.isOf k) htake
    have hold := hs.copies k
    show (broker.queues _).countP _ + (broker.queues _).countP _ +
      (w.deliveries ++ [d]).countP (Delivery.isOf k) ≤ w.clients.sentOf k
    rw [List.countP_append, List.countP_singleton, hd]
    rw [Traffic.copies] at hold
    rcases hexchange with rfl | rfl
    · rw [Broker.queues_take_of_ne htake (listenerQueue_ne requestExchange_ne.symm)]
      omega
    · rw [Broker.queues_take_of_ne htake (listenerQueue_ne requestExchange_ne)]
      omega
  · intro i call hcall hdone
    obtain ⟨d', hmem, hbrings⟩ := hs.answered i call hcall hdone
    exact ⟨d', List.mem_append_left _ hmem, hbrings⟩

/-- The queues after the reply of a handler, if it sends one. -/
theorem countP_replies_le {b : Broker (Message V)}
    (hb : b.bindings = (Traffic.init s).broker.bindings) (handler : MessageHandler Ty V)
    (hsend : ∀ r, handler.send r = .ok ()) {q : RemoteRequest} {headers : MessageHeaders}
    (hheaders : q.headers = some headers) {b' : Broker (Message V)}
    (hb' : b' = (handler.handleRequest q).sent.foldl
      (fun broker r => rabbitSend broker responseExchange r.headers (.response r)) b) :
    b'.queues (listenerQueue requestExchange s.name) =
        b.queues (listenerQueue requestExchange s.name) ∧
      (b'.queues (listenerQueue responseExchange s.name)).countP (Message.isOf k) ≤
        (b.queues (listenerQueue responseExchange s.name)).countP (Message.isOf k) +
          (if Message.isOf k (.request q : Message V) then 1 else 0) := by
  subst hb'
  by_cases hempty : handler.ThrowsEmpty q
  · rw [sent_of_throwsEmpty hempty]
    exact ⟨rfl, Nat.le_add_right _ _⟩
  · obtain ⟨r, hsent, -⟩ := handleRequest_answers hheaders hsend hempty
    have hecho : r.Echoes q := by
      apply mem_handleRequest_sent (h := handler)
      rw [hsent]
      exact List.mem_singleton_self r
    obtain ⟨headers', hheaders', hid, -⟩ := hecho
    have hisOf : Message.isOf k (.response r) = Message.isOf k (.request q : Message V) := by
      simp only [Message.isOf, Message.correlationId, hheaders', hid, Option.bind_some]
    rw [hsent, ← hisOf]
    exact ⟨queues_rabbitSend_of_ne hb requestExchange_ne.symm _ _, Broker.countP_publish_le _⟩

/-- A handled request is used up, and its reply takes its place. -/
theorem Traffic.Single.handleRequest (h : w.Inv s) (hs : w.Single s) {delivery : Nat}
    {q : RemoteRequest} (hd : w.deliveries[delivery]? = some (.request q none))
    (implementation : MethodInfo Ty → List (Option V) → Invocation V) (acknowledged : Bool) :
    Traffic.Single s { w with
      broker := ((s.handler implementation).handleRequest q).sent.foldl
        (fun broker r => rabbitSend broker responseExchange r.headers (.response r)) w.broker
      deliveries := w.deliveries.set delivery (.request q (some acknowledged)) } := by
  have hsend : ∀ r, (s.handler implementation).send r = .ok () := fun _ => rfl
  obtain ⟨j, asker, hasker, rfl⟩ := h.asking q none (List.mem_of_getElem? hd)
  obtain ⟨headers, hheaders, -⟩ := h.wf.addressed j asker hasker
  refine ⟨fun k => ?_, ?_⟩
  · obtain ⟨hrequests, hresponses⟩ := countP_replies_le (k := k) h.bindings
      (s.handler implementation) hsend hheaders rfl
    have hset := List.countP_set_add (p := Delivery.isOf k)
      (.request asker.request (some acknowledged)) hd
    have husedUp : Delivery.isOf k (.request asker.request (some acknowledged) : Delivery V) =
        false := rfl
    have hheld : Delivery.isOf k (.request asker.request none : Delivery V) =
        Message.isOf k (.request asker.request) := rfl
    rw [husedUp, hheld, if_neg Bool.false_ne_true] at hset
    have hold := hs.copies k
    simp only [Traffic.copies] at hold ⊢
    rw [hrequests]
    omega
  · intro i call hcall hdone
    exact List.exists_mem_set (hs.answered i call hcall hdone) hd fun hbrings => hbrings.elim

/-- A run of `HandleResponse` keeps its response. -/
theorem Traffic.Single.handleResponse (h : w.Inv s) (hs : w.Single s) {delivery process : Nat}
    {r : RemoteResponse V} {stage stage' : Stage} {clients : Clients V}
    (hd : w.deliveries[delivery]? = some (.response process r stage))
    (hhandle : w.clients.handleResponse process r stage = some (clients, stage')) :
    Traffic.Single s { w with
      clients
      deliveries := w.deliveries.set delivery (.response process r stage') } := by
  have hvalid := h.valid process r stage (List.mem_of_getElem? hd)
  refine ⟨fun k => ?_, ?_⟩
  · have hset := List.countP_set_add (p := Delivery.isOf k) (.response process r stage') hd
    have hsame : clients.sentOf k = w.clients.sentOf k := by
      rcases Clients.handleResponse_cases h.wf hvalid hhandle with ⟨rfl, -⟩ |
        ⟨awaiter, call, -, -, hcall, -, -, -, rfl⟩ | ⟨awaiter, call, threw, -, -, -, -, -, -, rfl⟩
      · rfl
      · have hcalls := List.countP_set_add
          (p := fun c : Call V => c.sent && decide (c.correlationId = k))
          { call with completion := some (.result r) } hcall
        exact Nat.add_right_cancel hcalls
      · rfl
    have hheld : Delivery.isOf k (.response process r stage') =
        Delivery.isOf k (.response process r stage) := rfl
    rw [hheld] at hset
    have hold := hs.copies k
    simp only [Traffic.copies] at hold ⊢
    omega
  · intro i call hcall hdone
    have hkeep : (∃ d ∈ w.deliveries, d.Brings call) →
        ∃ d ∈ w.deliveries.set delivery (.response process r stage'), d.Brings call :=
      fun hbrings => List.exists_mem_set hbrings hd id
    obtain ⟨old, hold, hk, -, -, hcompletion⟩ :=
      Clients.handleResponse_calls h.wf hvalid hhandle hcall
    obtain ⟨c, hc⟩ := Option.ne_none_iff_exists'.mp hdone
    rcases hcompletion c hc with hdone_old | ⟨-, hfor⟩
    · apply hkeep
      obtain ⟨d, hmem, hbrings⟩ := hs.answered i old hold (by rw [hdone_old]; simp)
      refine ⟨d, hmem, ?_⟩
      cases d with
      | request q acknowledged => exact hbrings
      | response p r' st =>
          show r'.headers.correlationId = some call.correlationId
          rw [hk]
          exact hbrings
    · exact ⟨_, List.mem_of_getElem? (List.getElem?_set_self
        (List.getElem?_eq_some_iff.mp hd).1), hfor⟩

theorem Traffic.single_init : (Traffic.init s).Single s := by
  refine ⟨fun k => ?_, fun i call hcall => by cases hcall⟩
  have hempty : ∀ queue, (Traffic.init s).broker.queues queue = [] := by
    intro queue
    simp only [Traffic.init, startListener, Broker.queues_bind, Broker.empty]
  rw [Traffic.copies, hempty, hempty]
  exact Nat.le_refl 0

theorem Traffic.Single.step (h : w.Inv s) (hs : w.Single s) {l : TrafficLabel Ty V}
    (hstep : w.step s l = some w') : w'.Single s := by
  rcases Traffic.step_cases hstep with
    ⟨process, k, method, args, m, clients, -, hm, hreg, rfl⟩ |
    ⟨awaiter, call, -, hcall, hunsent, rfl⟩ | ⟨n, q, broker, -, htake, rfl⟩ |
    ⟨process, n, r, broker, -, htake, rfl⟩ |
    ⟨delivery, implementation, q, acknowledged, -, hd, rfl⟩ |
    ⟨delivery, process, r, stage, stage', clients, -, hd, hhandle, rfl⟩
  · exact hs.execute (Clients.register_spec h.wf (Option.some_ne_none _) hreg).2.2
  · exact hs.send h hcall hunsent
  · exact hs.deliver (Or.inl rfl) htake fun _ => rfl
  · exact hs.deliver (Or.inr rfl) htake fun _ => rfl
  · exact hs.handleRequest h hd implementation acknowledged
  · exact hs.handleResponse h hd hhandle

-- ============================================================================
-- The exact condition
-- ============================================================================

/-- A call that is located has a message. -/
theorem Traffic.Located.copies_pos (h : w.Located s call)
    (hid : call.request.headers.bind MessageHeaders.correlationId = some call.correlationId) :
    0 < w.copies s call.correlationId := by
  rw [Traffic.copies]
  rcases h with hq | ⟨d, hd, hasks⟩ | ⟨r, hr, hfor⟩ | ⟨d, hd, hanswers⟩
  · have := List.countP_pos_iff.mpr ⟨_, hq, Message.isOf_request hid⟩
    omega
  · have := List.countP_pos_iff.mpr ⟨d, hd, Delivery.isOf_of_asks hasks hid⟩
    omega
  · have := List.countP_pos_iff.mpr ⟨_, hr, Message.isOf_response hfor⟩
    omega
  · have := List.countP_pos_iff.mpr
      ⟨d, hd, Delivery.isOf_of_brings (Delivery.brings_of_answers hanswers)⟩
    omega

/-- A call some of whose messages are not with a client has not completed. -/
theorem Traffic.Single.open_of (hs : w.Single s) {i : Nat}
    (hcall : w.clients.calls[i]? = some call)
    (hnone : ∀ d ∈ w.deliveries, ¬ d.Brings call) : call.completion = none := by
  by_contra hdone
  obtain ⟨d, hd, hbrings⟩ := hs.answered i call hcall hdone
  exact hnone d hd hbrings

/-- A response that goes to another client than the one whose call it answers was the last
    message of the call. -/
theorem Traffic.Single.astray (h : w.Inv s) (hs : w.Single s) {process n i : Nat}
    {r : RemoteResponse V} {broker : Broker (Message V)}
    (htake : w.broker.take (listenerQueue responseExchange s.name) n = some (.response r, broker))
    (hcall : w.clients.calls[i]? = some call) (hfor : r.For call) (hne : call.process ≠ process) :
    ¬ Traffic.NoneLost s { w with
      broker
      deliveries := w.deliveries ++ [.response process r .get] } := by
  have hsingle := hs.deliver (d := .response process r .get) (Or.inr rfl) htake fun _ => rfl
  have hcopies := hsingle.copies call.correlationId
  have hone := h.wf.sentOf_le call.correlationId
  have hnew : Delivery.isOf call.correlationId (.response process r .get) = true :=
    Message.isOf_response hfor
  simp only [Traffic.copies, List.countP_append, List.countP_singleton, hnew, if_true] at hcopies
  -- it is the one message of the call, so there is none elsewhere
  have hrequests : ∀ m ∈ broker.queues (listenerQueue requestExchange s.name),
      ¬ m.isOf call.correlationId = true := List.countP_eq_zero.mp (by omega)
  have hresponses : ∀ m ∈ broker.queues (listenerQueue responseExchange s.name),
      ¬ m.isOf call.correlationId = true := List.countP_eq_zero.mp (by omega)
  have hdeliveries : ∀ d ∈ w.deliveries, ¬ d.isOf call.correlationId = true :=
    List.countP_eq_zero.mp (by omega)
  have hsent : call.sent = true := h.wf.sent_of_sentOf hcall (by omega)
  have hopen : call.completion = none :=
    hs.open_of hcall fun d hd hbrings => hdeliveries d hd (Delivery.isOf_of_brings hbrings)
  intro hnone
  rcases hnone i call hcall hsent hopen with hq | ⟨d, hd, hasks⟩ | ⟨r', hr', hfor'⟩ |
    ⟨d, hd, hanswers⟩
  · exact hrequests _ hq (Message.isOf_request (h.wf.request_id hcall))
  · rcases List.mem_append.mp hd with hd | hd
    · exact hdeliveries d hd (Delivery.isOf_of_asks hasks (h.wf.request_id hcall))
    · rw [List.mem_singleton.mp hd] at hasks
      exact hasks
  · exact hresponses _ hr' (Message.isOf_response hfor')
  · rcases List.mem_append.mp hd with hd | hd
    · exact hdeliveries d hd (Delivery.isOf_of_brings (Delivery.brings_of_answers hanswers))
    · rw [List.mem_singleton.mp hd] at hanswers
      exact hne hanswers.1.symm

/-- A request that gets no answer was the last message of its call. -/
theorem Traffic.Single.unanswered (h : w.Inv s) (hs : w.Single s) {delivery : Nat}
    {q : RemoteRequest} (hd : w.deliveries[delivery]? = some (.request q none))
    (acknowledged : Bool) :
    ¬ Traffic.NoneLost s { w with
      deliveries := w.deliveries.set delivery (.request q (some acknowledged)) } := by
  obtain ⟨i, call, hcall, rfl⟩ := h.asking q none (List.mem_of_getElem? hd)
  have hid := h.wf.request_id hcall
  have hcopies := hs.copies call.correlationId
  have hone := h.wf.sentOf_le call.correlationId
  have hset := List.countP_set_add (p := Delivery.isOf call.correlationId)
    (.request call.request (some acknowledged)) hd
  have husedUp : Delivery.isOf call.correlationId
      (.request call.request (some acknowledged) : Delivery V) = false := rfl
  have hheld : Delivery.isOf call.correlationId (.request call.request none : Delivery V) =
      true := Message.isOf_request hid
  rw [husedUp, hheld, if_neg Bool.false_ne_true, if_pos rfl] at hset
  rw [Traffic.copies] at hcopies
  have hsent : call.sent = true := h.wf.sent_of_sentOf hcall (by omega)
  have hopen : call.completion = none := by
    apply hs.open_of hcall
    intro d hmem hbrings
    obtain ⟨d', hmem', hbrings'⟩ := List.exists_mem_set
      (y := .request call.request (some acknowledged)) ⟨d, hmem, hbrings⟩ hd id
    have := List.countP_pos_iff.mpr ⟨d', hmem', Delivery.isOf_of_brings hbrings'⟩
    omega
  intro hnone
  have hpos := (hnone i call hcall hsent hopen).copies_pos hid
  simp only [Traffic.copies] at hpos
  omega

/-- A step that fails the condition loses a call. -/
theorem Traffic.Single.breaks (h : w.Inv s) (hs : w.Single s) {l : TrafficLabel Ty V}
    (hrouted : ¬ w.Routed s l) (hstep : w.step s l = some w') : ¬ w'.NoneLost s := by
  rcases Traffic.step_cases hstep with
    ⟨process, k, method, args, m, clients, rfl, -, -, -⟩ | ⟨awaiter, call, rfl, -, -, -⟩ |
    ⟨n, q, broker, rfl, -, -⟩ | ⟨process, n, r, broker, rfl, htake, rfl⟩ |
    ⟨delivery, implementation, q, acknowledged, rfl, hd, rfl⟩ |
    ⟨delivery, process, r, stage, stage', clients, rfl, -, -, -⟩
  · exact absurd trivial hrouted
  · exact absurd trivial hrouted
  · exact absurd trivial hrouted
  · simp only [Traffic.Routed, not_forall] at hrouted
    obtain ⟨r', hr', call, hmem, hfor, hne⟩ := hrouted
    obtain ⟨i, hcall⟩ := List.mem_iff_getElem?.mp hmem
    obtain ⟨_, hr, heq⟩ := Option.map_eq_some_iff.mp htake
    rw [hr'] at hr
    cases hr
    cases heq
    exact hs.astray h htake hcall hfor hne
  · simp only [Traffic.Routed, not_forall, not_not] at hrouted
    obtain ⟨q', hd', hempty⟩ := hrouted
    obtain rfl : q = q' := by
      rw [hd] at hd'
      cases hd'
      rfl
    rw [sent_of_throwsEmpty hempty, List.foldl_nil]
    exact hs.unanswered h hd acknowledged
  · exact absurd trivial hrouted

/-- **No answer is lost iff every response is handed to the client whose call it answers**
    and no implementation throws an empty `AggregateException`. -/
theorem none_lost_iff_routed (s : Service Ty V) {ls : List (TrafficLabel Ty V)}
    (hrun : Transition.run (Traffic.step s) (Traffic.init s) ls = some w) :
    Transition.Always (Traffic.step s) (Traffic.NoneLost s) (Traffic.init s) ls ↔
      Transition.Along (Traffic.step s) (Traffic.Routed s) (Traffic.init s) ls := by
  have hstart : (Traffic.init s).Inv s ∧ (Traffic.init s).Single s :=
    ⟨Traffic.inv_init, Traffic.single_init⟩
  have hany : Transition.Along (Traffic.step s) (fun _ _ => True) (Traffic.init s) ls :=
    Transition.along_of_forall (fun _ _ => trivial) _ _
  refine Transition.always_iff_along (I := fun w => w.Inv s ∧ w.Single s) (fun _ h => h.1.located)
    ?_ ?_ hstart hany hrun
  · rintro w l w' ⟨h, hs⟩ - hrouted hstep
    exact ⟨h.step hrouted hstep, hs.step h hstep⟩
  · rintro w l w' ⟨h, hs⟩ - hrouted hstep
    exact hs.breaks h hrouted hstep

end Single

section TestInterface

def testService : Service String Bool where
  runtime := booleanRuntime
  contract := testInterface
  dotless := by decide
  dotlessMethods := by decide

/-- Client 0 calls `AsyncBooleanMethod(true)`; the server answers. -/
def answered : List (TrafficLabel String Bool) :=
  [.execute 0 "c" 0 [some true], .send 0, .deliverRequest 0,
    .handleRequest 0 fun _ _ => .returned (some (.completed (some true)))]

/-- The broker hands the answer to a client. -/
def answeredTo (process : Nat) : List (TrafficLabel String Bool) :=
  answered ++ [.deliverResponse process 0, .handleResponse 1]

theorem none_lost_iff_routed_answered :
    Transition.Always (Traffic.step testService) (Traffic.NoneLost testService)
      (Traffic.init testService) (answeredTo 0) := by
  have hrun : Transition.run (Traffic.step testService) (Traffic.init testService) (answeredTo 0) =
      some _ := rfl
  apply (none_lost_iff_routed testService hrun).mpr
  refine (Transition.along_cons rfl).mpr ⟨trivial, ?_⟩
  refine (Transition.along_cons rfl).mpr ⟨trivial, ?_⟩
  refine (Transition.along_cons rfl).mpr ⟨trivial, ?_⟩
  refine (Transition.along_cons rfl).mpr ⟨?_, ?_⟩
  · rintro q - ⟨m, args, -, -, hthrew⟩
    cases hthrew
  refine (Transition.along_cons rfl).mpr ⟨?_, ?_⟩
  · rintro r - call hcall -
    cases List.mem_singleton.mp hcall
    rfl
  exact (Transition.along_cons rfl).mpr ⟨trivial, trivial⟩

/-- The answer is handed to client 1, who does not know the id: it is not acknowledged and
    not handed out again. -/
theorem lost_answer :
    ∃ w, Transition.run (Traffic.step testService) (Traffic.init testService) (answeredTo 1) =
        some w ∧
      (∃ call, w.clients.calls = [call] ∧ call.process = 0 ∧ call.sent = true ∧
        call.completion = none) ∧
      w.broker.queues (listenerQueue responseExchange testService.name) = [] ∧
      (∃ q r, w.deliveries = [.request q (some true), .response 1 r (.ended (some false))]) ∧
      ¬ w.NoneLost testService := by
  refine ⟨_, rfl, ⟨_, rfl, rfl, rfl, rfl⟩, rfl, ⟨_, _, rfl⟩, fun h => ?_⟩
  rcases h 0 _ rfl rfl rfl with hq | ⟨d, hd, hasks⟩ | ⟨r, hr, -⟩ | ⟨d, hd, hanswers⟩
  · cases hq
  · rcases List.mem_cons.mp hd with rfl | hd
    · cases hasks.2
    · cases List.mem_singleton.mp hd
      exact hasks
  · cases hr
  · rcases List.mem_cons.mp hd with rfl | hd
    · exact hanswers
    · cases List.mem_singleton.mp hd
      cases hanswers.1

end TestInterface

end Milde.Remoting
