/-
  Milde.Remoting.Completable

  Which calls can still complete.

  What a call has in the queues or with its client is a few steps away from its answer,
  whatever has happened before.  Where nothing is left of it, no run brings the answer back.
  So `Located` tells the one kind of call from the other in every reachable state, also
  after responses have gone to clients that did not know them (`can_complete_iff`), and all
  calls can complete together iff none is lost (`all_complete_iff`).
-/
import Milde.Remoting.NoneLost

namespace Milde.Remoting

open TopicExchange

variable {Ty V : Type}

/-- Some run completes the call. -/
def Traffic.CanComplete (s : Service Ty V) (w : Traffic V) (i : Nat) : Prop :=
  ∃ ls w' call, Transition.run (Traffic.step s) w ls = some w' ∧
    w'.clients.calls[i]? = some call ∧ call.completion ≠ none

/-- Some run makes all calls complete. -/
def Traffic.AllComplete (s : Service Ty V) (w : Traffic V) : Prop :=
  ∃ ls w', Transition.run (Traffic.step s) w ls = some w' ∧
    ∀ call ∈ w'.clients.calls, call.completion ≠ none

/-- The call has sent its request, and nothing of it is left. -/
def Traffic.Lost (s : Service Ty V) (w : Traffic V) (i : Nat) (call : Call V) : Prop :=
  w.clients.calls[i]? = some call ∧ call.sent = true ∧ call.completion = none ∧
    ¬ w.Located s call

/-- What holds of every run, wherever its responses have gone. -/
structure Traffic.Orderly (s : Service Ty V) (w : Traffic V) : Prop where
  wf : w.clients.Wf
  bindings : w.broker.bindings = (Traffic.init s).broker.bindings
  keyed : ∀ (i : Nat) call, w.clients.calls[i]? = some call → s.Keyed call
  waiting : ∀ queue q, .request q ∈ w.broker.queues queue → w.Sends q
  asking : ∀ q acknowledged, .request q acknowledged ∈ w.deliveries → w.Sends q
  valid : ∀ process r stage, .response process r stage ∈ w.deliveries →
    stage.Valid w.clients process r

/-- Some run without detours completes the call. -/
def Traffic.Completes (s : Service Ty V) (w : Traffic V) (i : Nat) : Prop :=
  ∃ ls w' call, Transition.run (Traffic.step s) w ls = some w' ∧
    Transition.Along (Traffic.step s) (Traffic.Routed s) w ls ∧
    w'.clients.calls.length = w.clients.calls.length ∧
    w'.clients.calls[i]? = some call ∧ call.completion ≠ none

-- ============================================================================
-- Every run
-- ============================================================================

section Orderly

variable {s : Service Ty V} {w w' : Traffic V} {call : Call V} {i : Nat}

theorem Traffic.Inv.orderly (h : w.Inv s) : w.Orderly s :=
  ⟨h.wf, h.bindings, h.keyed, h.waiting, h.asking, h.valid⟩

theorem Traffic.Orderly.inv (h : w.Orderly s) (hnone : w.NoneLost s) : w.Inv s :=
  ⟨h.wf, h.bindings, h.keyed, h.waiting, h.asking, h.valid, hnone⟩

/-- A call that has sent nothing else than an old one goes under the same key. -/
theorem Service.Keyed.of_eq {old : Call V} (h : s.Keyed old) (hrequest : call.request = old.request)
    (hid : call.correlationId = old.correlationId) : s.Keyed call := by
  obtain ⟨headers, key, hheaders, hk, hkey⟩ := h
  refine ⟨headers, key, ?_, ?_, hkey⟩
  · rw [hrequest, hheaders]
  · rw [hid, hk]

theorem Traffic.Orderly.execute (h : w.Orderly s) {process : Nat} {k : String}
    {m : MethodInfo Ty} {args : List (Option V)} {clients : Clients V}
    (hm : m ∈ s.contract.methods)
    (hreg : w.clients.register process k (RemoteRequest.create m.name
      (args.map s.runtime.serializeObject)) (getRoutingKey s.contract m.name) = some clients) :
    Traffic.Orderly s { w with clients } ∧ w.clients.Later clients := by
  obtain ⟨hwf, hlater, hcalls⟩ := Clients.register_spec h.wf (Option.some_ne_none _) hreg
  refine ⟨⟨hwf, h.bindings, ?_, fun queue q hq => (h.waiting queue q hq).later hlater,
    fun q a hq => (h.asking q a hq).later hlater,
    fun p r stage hd => (h.valid p r stage hd).later hlater⟩, hlater⟩
  intro i call hcall
  have hcall : clients.calls[i]? = some call := hcall
  rw [hcalls] at hcall
  rcases List.getElem?_append_singleton hcall with hcall | ⟨-, rfl⟩
  · exact h.keyed i call hcall
  · exact ⟨_, _, rfl, rfl, rfl, m, hm, rfl⟩

theorem Traffic.Orderly.send (h : w.Orderly s) (hcall : w.clients.calls[i]? = some call) :
    Traffic.Orderly s { w with
      clients := w.clients.markSent i call
      broker := rabbitSend w.broker requestExchange (call.request.headers.getD {})
        (.request call.request) } ∧ w.clients.Later (w.clients.markSent i call) := by
  obtain ⟨hwf, hlater⟩ := Clients.markSent_spec h.wf hcall
  refine ⟨⟨hwf, h.bindings, ?_, ?_, fun q a hq => (h.asking q a hq).later hlater,
    fun p r stage hd => (h.valid p r stage hd).later hlater⟩, hlater⟩
  · intro j other hother
    rcases List.getElem?_set_cases hother with ⟨rfl, rfl⟩ | ⟨-, hother⟩
    · exact h.keyed i call hcall
    · exact h.keyed j other hother
  · intro queue q hq
    rcases Broker.mem_publish.mp hq with hq | ⟨-, hq⟩
    · exact (h.waiting queue q hq).later hlater
    · cases hq
      exact ⟨i, _, List.getElem?_set_self (List.getElem?_eq_some_iff.mp hcall).1, rfl⟩

theorem Traffic.Orderly.deliver (h : w.Orderly s) {queue : String} {n : Nat} {m : Message V}
    {broker : Broker (Message V)} {d : Delivery V}
    (htake : w.broker.take queue n = some (m, broker))
    (hd : (∃ q, m = .request q ∧ d = .request q none) ∨ ∃ p r, d = .response p r .get) :
    Traffic.Orderly s { w with broker, deliveries := w.deliveries ++ [d] } := by
  obtain ⟨hm, hback⟩ := Broker.mem_of_take htake
  refine ⟨h.wf, (Broker.take_bindings htake).trans h.bindings, h.keyed,
    fun queue q hq => h.waiting queue q (hback queue _ hq), ?_, ?_⟩
  · intro q a hmem
    rcases List.mem_append.mp hmem with hmem | hmem
    · exact h.asking q a hmem
    · rcases hd with ⟨q', rfl, rfl⟩ | ⟨p, r, rfl⟩
      · cases List.mem_singleton.mp hmem
        exact h.waiting queue q hm
      · cases List.mem_singleton.mp hmem
  · intro p r stage hmem
    rcases List.mem_append.mp hmem with hmem | hmem
    · exact h.valid p r stage hmem
    · rcases hd with ⟨q', -, rfl⟩ | ⟨p', r', rfl⟩
      · cases List.mem_singleton.mp hmem
      · cases List.mem_singleton.mp hmem
        trivial

theorem Traffic.Orderly.handleRequest (h : w.Orderly s) {n : Nat} {q : RemoteRequest}
    (hd : w.deliveries[n]? = some (.request q none)) (sent : List (RemoteResponse V))
    (acknowledged : Bool) :
    Traffic.Orderly s { w with
      broker := sent.foldl
        (fun broker r => rabbitSend broker responseExchange r.headers (.response r)) w.broker
      deliveries := w.deliveries.set n (.request q (some acknowledged)) } := by
  refine ⟨h.wf, (bindings_replies _ _).trans h.bindings, h.keyed, ?_, ?_, ?_⟩
  · intro queue q' hq'
    rcases (queues_replies _).2 hq' with hq' | ⟨r, hr⟩
    · exact h.waiting queue q' hq'
    · cases hr
  · intro q' a hmem
    rcases List.mem_or_eq_of_mem_set hmem with hmem | heq
    · exact h.asking q' a hmem
    · cases heq
      exact h.asking q none (List.mem_of_getElem? hd)
  · intro p r stage hmem
    rcases List.mem_or_eq_of_mem_set hmem with hmem | heq
    · exact h.valid p r stage hmem
    · cases heq

theorem Traffic.Orderly.handleResponse (h : w.Orderly s) {n process : Nat}
    {r : RemoteResponse V} {stage stage' : Stage} {clients : Clients V}
    (hd : w.deliveries[n]? = some (.response process r stage))
    (hhandle : w.clients.handleResponse process r stage = some (clients, stage')) :
    Traffic.Orderly s { w with
      clients
      deliveries := w.deliveries.set n (.response process r stage') } ∧
      w.clients.Later clients := by
  have hvalid := h.valid process r stage (List.mem_of_getElem? hd)
  obtain ⟨hwf, hlater, hvalid'⟩ := Clients.handleResponse_spec h.wf hvalid hhandle
  refine ⟨⟨hwf, h.bindings, ?_, fun queue q hq => (h.waiting queue q hq).later hlater, ?_, ?_⟩,
    hlater⟩
  · intro i call hcall
    obtain ⟨old, hold, hid, hrequest, -⟩ := Clients.handleResponse_calls h.wf hvalid hhandle hcall
    exact (h.keyed i old hold).of_eq hrequest hid
  · intro q a hmem
    rcases List.mem_or_eq_of_mem_set hmem with hmem | heq
    · exact (h.asking q a hmem).later hlater
    · cases heq
  · intro p r' stage'' hmem
    rcases List.mem_or_eq_of_mem_set hmem with hmem | heq
    · exact (h.valid p r' stage'' hmem).later hlater
    · cases heq
      exact hvalid'

theorem Traffic.Orderly.step (h : w.Orderly s) {l : TrafficLabel Ty V}
    (hstep : w.step s l = some w') : w'.Orderly s ∧ w.clients.Later w'.clients := by
  rcases Traffic.step_cases hstep with
    ⟨process, k, method, args, m, clients, -, hm, hreg, rfl⟩ | ⟨awaiter, call, -, hcall, -, rfl⟩ |
    ⟨n, q, broker, -, htake, rfl⟩ | ⟨process, n, r, broker, -, htake, rfl⟩ |
    ⟨delivery, implementation, q, acknowledged, -, hd, rfl⟩ |
    ⟨delivery, process, r, stage, stage', clients, -, hd, hhandle, rfl⟩
  · exact h.execute hm hreg
  · exact h.send hcall
  · exact ⟨h.deliver htake (Or.inl ⟨q, rfl, rfl⟩), Clients.Later.refl _⟩
  · exact ⟨h.deliver htake (Or.inr ⟨process, r, rfl⟩), Clients.Later.refl _⟩
  · exact ⟨h.handleRequest hd _ acknowledged, Clients.Later.refl _⟩
  · exact h.handleResponse hd hhandle

theorem Traffic.Orderly.run (h : w.Orderly s) {ls : List (TrafficLabel Ty V)}
    (hrun : Transition.run (Traffic.step s) w ls = some w') :
    w'.Orderly s ∧ w.clients.Later w'.clients := by
  refine Transition.run_invariant (I := fun u => u.Orderly s ∧ w.clients.Later u.clients) ?_
    ⟨h, Clients.Later.refl _⟩ hrun
  rintro u l u' ⟨hu, hlater⟩ hstep
  obtain ⟨hu', hlater'⟩ := hu.step hstep
  exact ⟨hu', hlater.trans hlater'⟩

theorem Traffic.orderly_of_reachable
    (h : Transition.Reachable (Traffic.step s) (Traffic.init s) w) : w.Orderly s := by
  obtain ⟨ls, hrun⟩ := h
  exact (Traffic.inv_init.orderly.run hrun).1

end Orderly

-- ============================================================================
-- What is lost stays lost
-- ============================================================================

section Lost

variable {s : Service Ty V} {w w' : Traffic V} {call : Call V} {i : Nat}

/-- What the replies of a handler add to the queues. -/
theorem mem_queues_replies {b : Broker (Message V)} {sent : List (RemoteResponse V)}
    {queue : String} {m : Message V}
    (hm : m ∈ (sent.foldl (fun broker r => rabbitSend broker responseExchange r.headers
      (.response r)) b).queues queue) : m ∈ b.queues queue ∨ ∃ r ∈ sent, m = .response r := by
  induction sent generalizing b with
  | nil => exact Or.inl hm
  | cons r sent ih =>
      rcases ih hm with hm | ⟨r', hr', rfl⟩
      · rcases Broker.mem_publish.mp hm with hm | ⟨-, rfl⟩
        · exact Or.inl hm
        · exact Or.inr ⟨r, List.mem_cons_self, rfl⟩
      · exact Or.inr ⟨r', List.mem_cons_of_mem r hr', rfl⟩

/-- A response to a request that some call has sent is for the call of the request. -/
theorem Traffic.Orderly.request_of_echoes (h : w.Orderly s)
    (hcall : w.clients.calls[i]? = some call) {q : RemoteRequest} (hq : w.Sends q)
    {r : RemoteResponse V} (hecho : r.Echoes q) (hfor : r.For call) : q = call.request := by
  obtain ⟨j, other, hother, rfl⟩ := hq
  obtain ⟨headers, hheaders, hid⟩ := h.wf.addressed j other hother
  obtain ⟨headers', hheaders', hid', -⟩ := hecho
  obtain rfl := Option.some.inj (hheaders.symm.trans hheaders')
  have heq : call.correlationId = other.correlationId :=
    Option.some.inj (hfor.symm.trans (hid'.trans hid))
  obtain rfl := h.wf.distinct i j call other hcall hother heq
  rw [Option.some.inj (hcall.symm.trans hother)]

/-- A step makes nothing of a call that has sent its request out of nothing. -/
theorem Traffic.Orderly.located_of_step (h : w.Orderly s)
    (hcall : w.clients.calls[i]? = some call) (hsent : call.sent = true) {l : TrafficLabel Ty V}
    (hstep : w.step s l = some w') (hlocated : w'.Located s call) : w.Located s call := by
  rcases Traffic.step_cases hstep with
    ⟨process, k, method, args, m, clients, -, -, -, rfl⟩ |
    ⟨awaiter, other, -, hother, hunsent, rfl⟩ | ⟨n, q, broker, -, htake, rfl⟩ |
    ⟨process, n, r, broker, -, htake, rfl⟩ |
    ⟨delivery, implementation, q, acknowledged, -, hd, rfl⟩ |
    ⟨delivery, process, r, stage, stage', clients, -, hd, hhandle, rfl⟩
  · exact hlocated
  · rcases hlocated with hq | hasks | ⟨r, hr, hfor⟩ | hanswers
    · rcases Broker.mem_publish.mp hq with hq | ⟨-, heq⟩
      · exact Or.inl hq
      · -- the request of this call has been sent before
        obtain rfl := h.wf.eq_of_request hcall hother (Message.request.inj heq)
        obtain rfl := Option.some.inj (hcall.symm.trans hother)
        rw [hsent] at hunsent
        cases hunsent
    · exact Or.inr (Or.inl hasks)
    · rcases Broker.mem_publish.mp hr with hr | ⟨-, heq⟩
      · exact Or.inr (Or.inr (Or.inl ⟨r, hr, hfor⟩))
      · cases heq
    · exact Or.inr (Or.inr (Or.inr hanswers))
  · obtain ⟨hmem, hback⟩ := Broker.mem_of_take htake
    rcases hlocated with hq | ⟨d, hd, hasks⟩ | ⟨r, hr, hfor⟩ | ⟨d, hd, hanswers⟩
    · exact Or.inl (hback _ _ hq)
    · rcases List.mem_append.mp hd with hd | hd
      · exact Or.inr (Or.inl ⟨d, hd, hasks⟩)
      · rw [List.mem_singleton.mp hd] at hasks
        obtain ⟨rfl, -⟩ := hasks
        exact Or.inl hmem
    · exact Or.inr (Or.inr (Or.inl ⟨r, hback _ _ hr, hfor⟩))
    · rcases List.mem_append.mp hd with hd | hd
      · exact Or.inr (Or.inr (Or.inr ⟨d, hd, hanswers⟩))
      · rw [List.mem_singleton.mp hd] at hanswers
        exact hanswers.elim
  · obtain ⟨hmem, hback⟩ := Broker.mem_of_take htake
    rcases hlocated with hq | ⟨d, hd, hasks⟩ | ⟨r', hr, hfor⟩ | ⟨d, hd, hanswers⟩
    · exact Or.inl (hback _ _ hq)
    · rcases List.mem_append.mp hd with hd | hd
      · exact Or.inr (Or.inl ⟨d, hd, hasks⟩)
      · rw [List.mem_singleton.mp hd] at hasks
        exact hasks.elim
    · exact Or.inr (Or.inr (Or.inl ⟨r', hback _ _ hr, hfor⟩))
    · rcases List.mem_append.mp hd with hd | hd
      · exact Or.inr (Or.inr (Or.inr ⟨d, hd, hanswers⟩))
      · rw [List.mem_singleton.mp hd] at hanswers
        exact Or.inr (Or.inr (Or.inl ⟨r, hmem, hanswers.2.1⟩))
  · have hmem := List.mem_of_getElem? hd
    rcases hlocated with hq | ⟨d, hd', hasks⟩ | ⟨r, hr, hfor⟩ | ⟨d, hd', hanswers⟩
    · rcases mem_queues_replies hq with hq | ⟨r, -, heq⟩
      · exact Or.inl hq
      · cases heq
    · rcases List.mem_or_eq_of_mem_set hd' with hd' | rfl
      · exact Or.inr (Or.inl ⟨d, hd', hasks⟩)
      · cases hasks.2
    · rcases mem_queues_replies hr with hr | ⟨r', hr', heq⟩
      · exact Or.inr (Or.inr (Or.inl ⟨r, hr, hfor⟩))
      · cases heq
        have hecho : r.Echoes q := mem_handleRequest_sent hr'
        have hrequest := h.request_of_echoes hcall (h.asking q none hmem) hecho hfor
        exact Or.inr (Or.inl ⟨_, hmem, hrequest, rfl⟩)
    · rcases List.mem_or_eq_of_mem_set hd' with hd' | rfl
      · exact Or.inr (Or.inr (Or.inr ⟨d, hd', hanswers⟩))
      · exact hanswers.elim
  · have hmem := List.mem_of_getElem? hd
    rcases hlocated with hq | ⟨d, hd', hasks⟩ | ⟨r', hr, hfor⟩ | ⟨d, hd', hanswers⟩
    · exact Or.inl hq
    · rcases List.mem_or_eq_of_mem_set hd' with hd' | rfl
      · exact Or.inr (Or.inl ⟨d, hd', hasks⟩)
      · exact hasks.elim
    · exact Or.inr (Or.inr (Or.inl ⟨r', hr, hfor⟩))
    · rcases List.mem_or_eq_of_mem_set hd' with hd' | rfl
      · exact Or.inr (Or.inr (Or.inr ⟨d, hd', hanswers⟩))
      · obtain ⟨hp, hfor, -⟩ := hanswers
        refine Or.inr (Or.inr (Or.inr ⟨_, hmem, hp, hfor, ?_⟩))
        rintro returned rfl
        cases hhandle

/-- **Nothing brings a lost call back.** -/
theorem Traffic.Lost.step (h : w.Orderly s) (hlost : w.Lost s i call) {l : TrafficLabel Ty V}
    (hstep : w.step s l = some w') : w'.Lost s i call := by
  obtain ⟨hcall, hsent, hopen, hgone⟩ := hlost
  refine ⟨?_, hsent, hopen, fun hlocated => hgone (h.located_of_step hcall hsent hstep hlocated)⟩
  rcases Traffic.step_cases hstep with
    ⟨process, k, method, args, m, clients, -, -, hreg, rfl⟩ |
    ⟨awaiter, other, -, hother, hunsent, rfl⟩ | ⟨n, q, broker, -, -, rfl⟩ |
    ⟨process, n, r, broker, -, -, rfl⟩ | ⟨delivery, implementation, q, acknowledged, -, -, rfl⟩ |
    ⟨delivery, process, r, stage, stage', clients, -, hd, hhandle, rfl⟩
  · obtain ⟨-, -, hcalls⟩ := Clients.register_spec h.wf (Option.some_ne_none _) hreg
    show clients.calls[i]? = some call
    rw [hcalls]
    exact List.getElem?_append_of_some hcall
  · have hne : awaiter ≠ i := by
      rintro rfl
      obtain rfl := Option.some.inj (hcall.symm.trans hother)
      rw [hsent] at hunsent
      cases hunsent
    exact (List.getElem?_set_ne hne).trans hcall
  · exact hcall
  · exact hcall
  · exact hcall
  · have hmem := List.mem_of_getElem? hd
    have hvalid := h.valid process r stage hmem
    refine (Clients.handleResponse_frame h.wf hvalid hhandle hcall ?_).1
    rintro ⟨hp, hfor⟩
    refine hgone (Or.inr (Or.inr (Or.inr ⟨_, hmem, hp.symm, hfor, ?_⟩)))
    rintro returned rfl
    cases hhandle

theorem Traffic.Lost.run (h : w.Orderly s) (hlost : w.Lost s i call)
    {ls : List (TrafficLabel Ty V)} (hrun : Transition.run (Traffic.step s) w ls = some w') :
    w'.Lost s i call := by
  refine (Transition.run_invariant (I := fun u => u.Orderly s ∧ u.Lost s i call) ?_
    ⟨h, hlost⟩ hrun).2
  rintro u l u' ⟨hu, hlost⟩ hstep
  exact ⟨(hu.step hstep).1, hlost.step hu hstep⟩

end Lost

-- ============================================================================
-- What is not lost can complete
-- ============================================================================

section Completes

variable {s : Service Ty V} {w w' : Traffic V} {call : Call V} {i n : Nat}
  {r : RemoteResponse V}

theorem Traffic.Completes.cons {l : TrafficLabel Ty V} (h : w'.Completes s i)
    (hstep : w.step s l = some w') (hrouted : w.Routed s l)
    (hlength : w'.clients.calls.length = w.clients.calls.length) : w.Completes s i := by
  obtain ⟨ls, u, call, hrun, halong, hlength', hcall, hdone⟩ := h
  exact ⟨l :: ls, u, call, Transition.run_cons_eq_some.mpr ⟨w', hstep, hrun⟩,
    (Transition.along_cons hstep).mpr ⟨hrouted, halong⟩, hlength'.trans hlength, hcall, hdone⟩

theorem Traffic.completes_of_done (hcall : w.clients.calls[i]? = some call)
    (hdone : call.completion ≠ none) : w.Completes s i :=
  ⟨[], w, call, rfl, trivial, rfl, hcall, hdone⟩

/-- `SetResult`. -/
theorem Traffic.completes_set (hcall : w.clients.calls[i]? = some call)
    (hopen : call.completion = none) {process : Nat}
    (hd : w.deliveries[n]? = some (.response process r (.set i))) : w.Completes s i := by
  have hhandle : w.clients.handleResponse process r (.set i) =
      some (w.clients.complete i call (.result r), .remove i false) := by
    simp [Clients.handleResponse, hcall, hopen]
  have hstep : w.step s (.handleResponse n) = some { w with
      clients := w.clients.complete i call (.result r)
      deliveries := w.deliveries.set n (.response process r (.remove i false)) } := by
    simp only [Traffic.step, hd, hhandle, Option.map_some]
  have hself := List.getElem?_set_self (l := w.clients.calls)
    (a := { call with completion := some (.result r) }) (List.getElem?_eq_some_iff.mp hcall).1
  exact (Traffic.completes_of_done hself (Option.some_ne_none _)).cons hstep trivial
    List.length_set

/-- The client has the response, and its `HandleResponse` has not ended. -/
theorem Traffic.Orderly.completes_answering (h : w.Orderly s)
    (hcall : w.clients.calls[i]? = some call) (hopen : call.completion = none)
    {stage : Stage} (hd : w.deliveries[n]? = some (.response call.process r stage))
    (hfor : r.For call) (hrunning : ∀ returned, stage ≠ .ended returned) : w.Completes s i := by
  have hvalid := h.valid _ r stage (List.mem_of_getElem? hd)
  -- the run can only be for this call
  have hsame : ∀ (awaiter : Nat) other, w.clients.calls[awaiter]? = some other → r.For other →
      awaiter = i ∧ other = call := by
    intro awaiter other hother hfor'
    obtain rfl := h.wf.distinct awaiter i other call hother hcall
      (Option.some.inj (hfor'.symm.trans hfor))
    exact ⟨rfl, Option.some.inj (hother.symm.trans hcall)⟩
  cases stage with
  | get =>
      have hhandle : w.clients.handleResponse call.process r .get = some (w.clients, .set i) := by
        simp only [Clients.handleResponse, show r.headers.correlationId = _ from hfor,
          h.wf.pending i call hcall hopen]
      have hstep : w.step s (.handleResponse n) = some { w with
          deliveries := w.deliveries.set n (.response call.process r (.set i)) } := by
        simp only [Traffic.step, hd, hhandle, Option.map_some]
      have hnext : (w.deliveries.set n (.response call.process r (.set i)))[n]? =
          some (.response call.process r (.set i)) :=
        List.getElem?_set_self (List.getElem?_eq_some_iff.mp hd).1
      have hset : Traffic.Completes s { w with
          deliveries := w.deliveries.set n (.response call.process r (.set i)) } i :=
        Traffic.completes_set hcall hopen hnext
      exact hset.cons hstep trivial rfl
  | set awaiter =>
      obtain ⟨other, hother, -, hfor'⟩ := hvalid
      obtain ⟨rfl, -⟩ := hsame awaiter other hother hfor'
      exact Traffic.completes_set hcall hopen hd
  | setException awaiter =>
      obtain ⟨other, hother, -, hfor', hdone⟩ := hvalid
      obtain ⟨-, rfl⟩ := hsame awaiter other hother hfor'
      exact absurd hopen hdone
  | remove awaiter threw =>
      obtain ⟨other, hother, -, hfor', hdone⟩ := hvalid
      obtain ⟨-, rfl⟩ := hsame awaiter other hother hfor'
      exact absurd hopen hdone
  | ended returned => exact absurd rfl (hrunning returned)

/-- The response waits: it is handed to the client of the call. -/
theorem Traffic.Orderly.completes_replied (h : w.Orderly s)
    (hcall : w.clients.calls[i]? = some call) (hopen : call.completion = none)
    (hr : .response r ∈ w.broker.queues (listenerQueue responseExchange s.name))
    (hfor : r.For call) : w.Completes s i := by
  obtain ⟨n, hn⟩ := List.mem_iff_getElem?.mp hr
  obtain ⟨broker, htake⟩ : ∃ broker,
      w.broker.take (listenerQueue responseExchange s.name) n = some (.response r, broker) := by
    simp [Broker.take, hn]
  have hstep : w.step s (.deliverResponse call.process n) = some { w with
      broker, deliveries := w.deliveries ++ [.response call.process r .get] } := by
    simp only [Traffic.step, htake]
  have hrouted : w.Routed s (.deliverResponse call.process n : TrafficLabel Ty V) := by
    intro r' hr' other hother hfor'
    cases hn.symm.trans hr'
    obtain ⟨j, hj⟩ := List.mem_iff_getElem?.mp hother
    obtain rfl := h.wf.distinct j i other call hj hcall
      (Option.some.inj (hfor'.symm.trans hfor))
    rw [Option.some.inj (hj.symm.trans hcall)]
  have hanswered := (h.step hstep).1.completes_answering hcall hopen List.getElem?_concat_length
    hfor fun returned heq => by cases heq
  exact hanswered.cons hstep hrouted rfl

/-- The server has the request: an implementation answers it. -/
theorem Traffic.Orderly.completes_asking (h : w.Orderly s)
    (hcall : w.clients.calls[i]? = some call) (hopen : call.completion = none)
    (hd : w.deliveries[n]? = some (.request call.request none)) : w.Completes s i := by
  let implementation : MethodInfo Ty → List (Option V) → Invocation V := fun _ _ => .returned none
  have hempty : ∀ q, ¬ (s.handler implementation).ThrowsEmpty q := by
    rintro q ⟨m, args, -, -, hthrew⟩
    cases hthrew
  obtain ⟨w', acknowledged, hstep, hw'⟩ : ∃ w' acknowledged,
      w.step s (.handleRequest n implementation) = some w' ∧ w' = { w with
        broker := ((s.handler implementation).handleRequest call.request).sent.foldl
          (fun broker r => rabbitSend broker responseExchange r.headers (.response r)) w.broker
        deliveries := w.deliveries.set n (.request call.request (some acknowledged)) } := by
    simp only [Traffic.step, hd]
    exact ⟨_, _, rfl, rfl⟩
  obtain ⟨r, hfor, hr⟩ := mem_replies h.bindings (fun _ => rfl) (h.keyed i call hcall)
    (hempty call.request)
  have horderly := (h.step hstep).1
  subst hw'
  exact (horderly.completes_replied hcall hopen hr hfor).cons hstep (fun q _ => hempty q) rfl

/-- The request waits: it is handed to the server. -/
theorem Traffic.Orderly.completes_waiting (h : w.Orderly s)
    (hcall : w.clients.calls[i]? = some call) (hopen : call.completion = none)
    (hq : .request call.request ∈ w.broker.queues (listenerQueue requestExchange s.name)) :
    w.Completes s i := by
  obtain ⟨n, hn⟩ := List.mem_iff_getElem?.mp hq
  obtain ⟨broker, htake⟩ : ∃ broker, w.broker.take (listenerQueue requestExchange s.name) n =
      some (.request call.request, broker) := by
    simp [Broker.take, hn]
  have hstep : w.step s (.deliverRequest n) = some { w with
      broker, deliveries := w.deliveries ++ [.request call.request none] } := by
    simp only [Traffic.step, htake]
  have hasked := (h.step hstep).1.completes_asking hcall hopen List.getElem?_concat_length
  exact hasked.cons hstep trivial rfl

/-- The request has not been sent. -/
theorem Traffic.Orderly.completes_unsent (h : w.Orderly s)
    (hcall : w.clients.calls[i]? = some call) (hopen : call.completion = none)
    (hunsent : call.sent = false) : w.Completes s i := by
  obtain ⟨headers, key, hheaders, -, hkey, hiskey⟩ := h.keyed i call hcall
  have hstep : w.step s (.send i) = some { w with
      clients := w.clients.markSent i call
      broker := rabbitSend w.broker requestExchange (call.request.headers.getD {})
        (.request call.request) } := by
    simp [Traffic.step, hcall, hunsent]
  have hself := List.getElem?_set_self (l := w.clients.calls) (a := { call with sent := true })
    (List.getElem?_eq_some_iff.mp hcall).1
  have hq : .request call.request ∈ (rabbitSend w.broker requestExchange
      (call.request.headers.getD {}) (.request call.request)).queues
        (listenerQueue requestExchange s.name) := by
    rw [hheaders, Option.getD_some]
    exact mem_rabbitSend h.bindings (Or.inl rfl) hiskey hkey _
  have hsent := (h.step hstep).1.completes_waiting hself hopen hq
  exact hsent.cons hstep trivial List.length_set

theorem Traffic.Orderly.completes (h : w.Orderly s) (hcall : w.clients.calls[i]? = some call)
    (hopen : call.completion = none) (hleft : call.sent = false ∨ w.Located s call) :
    w.Completes s i := by
  rcases hleft with hunsent | hq | ⟨d, hd, hasks⟩ | ⟨r, hr, hfor⟩ | ⟨d, hd, hanswers⟩
  · exact h.completes_unsent hcall hopen hunsent
  · exact h.completes_waiting hcall hopen hq
  · obtain ⟨n, hn⟩ := List.mem_iff_getElem?.mp hd
    cases d with
    | request q acknowledged =>
        obtain ⟨rfl, rfl⟩ := hasks
        exact h.completes_asking hcall hopen hn
    | response process r stage => exact hasks.elim
  · exact h.completes_replied hcall hopen hr hfor
  · obtain ⟨n, hn⟩ := List.mem_iff_getElem?.mp hd
    cases d with
    | request q acknowledged => exact hanswers.elim
    | response process r stage =>
        obtain ⟨rfl, hfor, hrunning⟩ := hanswers
        exact h.completes_answering hcall hopen hn hfor hrunning

end Completes

-- ============================================================================
-- The exact conditions
-- ============================================================================

section Exact

variable {s : Service Ty V} {w : Traffic V} {call : Call V} {i : Nat}

/-- **A call can still complete** iff it has completed, has not been sent, or has its request
    or its response in a queue, with the server or with its client. -/
theorem can_complete_iff (h : Transition.Reachable (Traffic.step s) (Traffic.init s) w)
    (hcall : w.clients.calls[i]? = some call) : w.CanComplete s i ↔
      call.completion ≠ none ∨ call.sent = false ∨ w.Located s call := by
  have horderly := Traffic.orderly_of_reachable h
  refine ⟨?_, fun hleft => ?_⟩
  · rintro ⟨ls, w', call', hrun, hcall', hdone⟩
    by_contra hnot
    simp only [not_or, Decidable.not_not, Bool.not_eq_false] at hnot
    obtain ⟨hopen, hsent, hgone⟩ := hnot
    obtain ⟨hsame, -⟩ := Traffic.Lost.run horderly ⟨hcall, hsent, hopen, hgone⟩ hrun
    rw [Option.some.inj (hcall'.symm.trans hsame)] at hdone
    exact hdone hopen
  · cases hcompletion : call.completion with
    | some c =>
        refine ⟨[], w, call, rfl, hcall, ?_⟩
        rw [hcompletion]
        exact Option.some_ne_none c
    | none =>
        rw [hcompletion] at hleft
        have hleft := hleft.resolve_left fun hne => hne rfl
        obtain ⟨ls, w', call', hrun, -, -, hcall', hdone⟩ :=
          horderly.completes hcall hcompletion hleft
        exact ⟨ls, w', call', hrun, hcall', hdone⟩

/-- The calls complete one after the other. -/
theorem Traffic.Inv.complete_first (h : w.Inv s) (k : Nat) : ∃ ls w',
    Transition.run (Traffic.step s) w ls = some w' ∧ w'.Inv s ∧
      w'.clients.calls.length = w.clients.calls.length ∧
      ∀ j < k, ∀ call, w'.clients.calls[j]? = some call → call.completion ≠ none := by
  induction k with
  | zero => exact ⟨[], w, rfl, h, rfl, fun j hj => absurd hj (Nat.not_lt_zero j)⟩
  | succ k ih =>
      obtain ⟨ls, u, hrun, hu, hlength, hfirst⟩ := ih
      have hnext : ∀ call, u.clients.calls[k]? = some call → u.Completes s k := by
        intro call hcall
        by_cases hopen : call.completion = none
        · refine hu.orderly.completes hcall hopen ?_
          by_cases hsent : call.sent = true
          · exact Or.inr (hu.located k call hcall hsent hopen)
          · exact Or.inl (Bool.eq_false_iff.mpr hsent)
        · exact Traffic.completes_of_done hcall hopen
      cases hk : u.clients.calls[k]? with
      | none =>
          refine ⟨ls, u, hrun, hu, hlength, fun j hj call hcall => ?_⟩
          rcases Nat.lt_succ_iff_lt_or_eq.mp hj with hj | rfl
          · exact hfirst j hj call hcall
          · rw [hk] at hcall
            cases hcall
      | some call =>
          obtain ⟨ls', u', call', hrun', halong, hlength', hcall', hdone⟩ := hnext call hk
          have hu' : u'.Inv s := Transition.run_invariant_along
            (fun _ _ _ hinv hrouted hstep => hinv.step hrouted hstep) hu halong hrun'
          have hlater := (hu.orderly.run hrun').2
          refine ⟨ls ++ ls', u', Transition.run_trans hrun hrun', hu', hlength'.trans hlength,
            fun j hj other hother => ?_⟩
          rcases Nat.lt_succ_iff_lt_or_eq.mp hj with hj | rfl
          · -- what has completed stays so
            have hlt : j < u.clients.calls.length := by
              rw [← hlength']
              exact (List.getElem?_eq_some_iff.mp hother).1
            have hold := List.getElem?_eq_getElem hlt
            obtain ⟨other', hother', -, -, -, -, hkept⟩ := hlater j _ hold
            obtain ⟨c, hc⟩ := Option.ne_none_iff_exists'.mp (hfirst j hj _ hold)
            rw [Option.some.inj (hother.symm.trans hother'), hkept c hc]
            exact Option.some_ne_none c
          · rw [Option.some.inj (hother.symm.trans hcall')]
            exact hdone

/-- **All calls can complete together** iff none of them is lost. -/
theorem all_complete_iff (h : Transition.Reachable (Traffic.step s) (Traffic.init s) w) :
    w.AllComplete s ↔ w.NoneLost s := by
  have horderly := Traffic.orderly_of_reachable h
  refine ⟨?_, fun hnone => ?_⟩
  · rintro ⟨ls, w', hrun, hall⟩ i call hcall hsent hopen
    by_contra hgone
    obtain ⟨hsame, -⟩ := Traffic.Lost.run horderly ⟨hcall, hsent, hopen, hgone⟩ hrun
    exact hall call (List.mem_of_getElem? hsame) hopen
  · obtain ⟨ls, w', hrun, -, hlength, hfirst⟩ :=
      (horderly.inv hnone).complete_first w.clients.calls.length
    refine ⟨ls, w', hrun, fun call hcall => ?_⟩
    obtain ⟨j, hj⟩ := List.mem_iff_getElem?.mp hcall
    refine hfirst j ?_ call hj
    rw [← hlength]
    exact (List.getElem?_eq_some_iff.mp hj).1

end Exact

section TestInterface

/-- Client 0 has lost its answer to client 1, and client 2 sends a call. -/
def astray : List (TrafficLabel String Bool) :=
  answeredTo 1 ++ [.execute 2 "d" 0 [some false], .send 1]

def astrayEnd : Traffic Bool :=
  (Transition.run (Traffic.step testService) (Traffic.init testService) astray).getD
    (Traffic.init testService)

theorem can_complete_iff_astray :
    Transition.run (Traffic.step testService) (Traffic.init testService) astray =
        some astrayEnd ∧
      ¬ astrayEnd.CanComplete testService 0 ∧ astrayEnd.CanComplete testService 1 := by
  have hrun : Transition.run (Traffic.step testService) (Traffic.init testService) astray =
      some astrayEnd := rfl
  obtain ⟨lost, hlost⟩ : ∃ call, astrayEnd.clients.calls[0]? = some call := ⟨_, rfl⟩
  obtain ⟨sent, hsent⟩ : ∃ call, astrayEnd.clients.calls[1]? = some call := ⟨_, rfl⟩
  refine ⟨hrun, fun h => ?_, (can_complete_iff ⟨_, hrun⟩ hsent).mpr ?_⟩
  · rcases (can_complete_iff ⟨_, hrun⟩ hlost).mp h with hdone | hunsent | hq | ⟨d, hd, hasks⟩ |
      ⟨r, hr, -⟩ | ⟨d, hd, hanswers⟩
    · cases hlost
      exact hdone rfl
    · cases hlost
      cases hunsent
    · have hids : ∀ m ∈ astrayEnd.broker.queues (listenerQueue requestExchange testService.name),
          Message.correlationId m = some "d" := by
        intro m hm
        rw [List.mem_singleton.mp hm]
        rfl
      cases hlost
      exact absurd (hids _ hq) (by decide)
    · cases hlost
      rcases List.mem_cons.mp hd with rfl | hd
      · cases hasks.2
      · cases List.mem_singleton.mp hd
        exact hasks
    · cases hr
    · cases hlost
      rcases List.mem_cons.mp hd with rfl | hd
      · exact hanswers
      · cases List.mem_singleton.mp hd
        cases hanswers.1
  · cases hsent
    exact Or.inr (Or.inr (Or.inl (List.mem_singleton_self _)))

theorem all_complete_iff_answered :
    (∃ w, Transition.run (Traffic.step testService) (Traffic.init testService) answered = some w ∧
      w.AllComplete testService) ∧
    ∃ w, Transition.run (Traffic.step testService) (Traffic.init testService) (answeredTo 1) =
      some w ∧ ¬ w.AllComplete testService := by
  refine ⟨⟨_, rfl, ?_⟩, ⟨_, rfl, fun h => ?_⟩⟩
  · have hrun : Transition.run (Traffic.step testService) (Traffic.init testService) answered =
        some _ := rfl
    refine (all_complete_iff ⟨_, hrun⟩).mpr ?_
    rintro (_ | i) call hcall - -
    · cases hcall
      exact Or.inr (Or.inr (Or.inl ⟨_, List.mem_singleton_self _, rfl⟩))
    · cases hcall
  · have hrun : Transition.run (Traffic.step testService) (Traffic.init testService)
        (answeredTo 1) = some _ := rfl
    rcases (all_complete_iff ⟨_, hrun⟩).mp h 0 _ rfl rfl rfl with hq | ⟨d, hd, hasks⟩ |
      ⟨r, hr, -⟩ | ⟨d, hd, hanswers⟩
    · cases hq
    · rcases List.mem_cons.mp hd with rfl | hd
      · cases hasks.2
      · cases List.mem_singleton.mp hd
        exact hasks
    · cases hr
    · rcases List.mem_cons.mp hd with rfl | hd
      · exact hanswers
      · cases List.mem_singleton.mp hd
        cases hanswers.1

end TestInterface

end Milde.Remoting
