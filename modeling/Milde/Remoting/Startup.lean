/-
  Milde.Remoting.Startup

  The start of a service process (Remoting/Registration/ServiceConfigurator.cs).

  The container constructs and starts the three components of `RegisterService` in some
  order.  The listener consumes from its own `Start`, the message handler attaches itself
  in its constructor, and the sender opens its channel in its `Start`; nothing makes one
  wait for another.  A request that is delivered before the handler is attached reaches
  nobody, and a reply that is due before the sender has started is a null reference
  (`served_iff`).
-/
import Milde.Remoting.NoneLost

namespace Milde.Remoting

variable {Ty V : Type}

/-- The components of `RegisterService` that the container starts. -/
inductive Component where
  | listener
  | sender
  | messageHandler
deriving DecidableEq, Repr

/-- What a constructor takes of the others. -/
def Component.dependencies : Component → List Component
  | .messageHandler => [.listener, .sender]
  | _ => []

/-- What has become of a delivery: no handler was attached to `Received`, its handler is
    running, or it has run, with the replies it sent and whether it was acknowledged. -/
inductive Receipt (V : Type) where
  | unheard
  | handling
  | handled (sent : List (RemoteResponse V)) (acknowledged : Bool)

structure RequestDelivery (V : Type) where
  request : RemoteRequest
  receipt : Receipt V

/-- A starting service process. -/
structure Startup (V : Type) where
  constructed : Component → Bool
  started : Component → Bool
  deliveries : List (RequestDelivery V)

/-- The container constructs or starts a component, the broker delivers a request, or the
    run of `HandleRequest` for a delivery comes to its reply. -/
inductive StartupLabel (Ty V : Type) where
  | construct (component : Component)
  | start (component : Component)
  | deliver (request : RemoteRequest)
  | handle (delivery : Nat) (implementation : MethodInfo Ty → List (Option V) → Invocation V)

namespace Startup

def init : Startup V := ⟨fun _ => false, fun _ => false, []⟩

/-- The message handler, whose sender has a channel only when it has started. -/
def handler (s : Service Ty V) (w : Startup V)
    (implementation : MethodInfo Ty → List (Option V) → Invocation V) : MessageHandler Ty V :=
  { s.handler implementation with
    send := fun _ => if w.started .sender then .ok () else .error .nullReference }

/-- One step; `none` when the label is not enabled.  A well-formed request has headers. -/
def step (s : Service Ty V) (w : Startup V) : StartupLabel Ty V → Option (Startup V)
  | .construct component =>
      if w.constructed component then none
      else
        let new := component :: component.dependencies
        some { w with constructed := fun other => w.constructed other || decide (other ∈ new) }
  | .start component =>
      if w.constructed component && !w.started component then
        some { w with started := Function.update w.started component true }
      else none
  | .deliver request =>
      if w.started .listener && request.headers.isSome then
        some { w with deliveries := w.deliveries ++
          [⟨request, if w.constructed .messageHandler then .handling else .unheard⟩] }
      else none
  | .handle delivery implementation =>
      match w.deliveries[delivery]? with
      | some ⟨request, .handling⟩ =>
          let handled := (w.handler s implementation).handleRequest request
          let acknowledged :=
            match handled.outcome with
            | .ok returned => returned
            | .error _ => false
          some { w with deliveries :=
            w.deliveries.set delivery ⟨request, .handled handled.sent acknowledged⟩ }
      | _ => none

/-- Every delivered request was handled, its reply sent, and the delivery acknowledged. -/
def AllServed (w : Startup V) : Prop :=
  ∀ d ∈ w.deliveries, ∃ reply, d.receipt = .handled [reply] true ∧ reply.Echoes d.request

/-- No handler is running. -/
def Idle (w : Startup V) : Prop := ∀ d ∈ w.deliveries, d.receipt ≠ .handling

/-- When a request is delivered the message handler is constructed; when a reply is due the
    sender has started, and the implementation has not thrown an empty
    `AggregateException`. -/
def InTime (s : Service Ty V) (w : Startup V) : StartupLabel Ty V → Prop
  | .deliver _ => w.constructed .messageHandler = true
  | .handle delivery implementation => w.started .sender = true ∧
      ∀ request, w.deliveries[delivery]? = some ⟨request, .handling⟩ →
        ¬ (w.handler s implementation).ThrowsEmpty request
  | _ => True

end Startup

-- ============================================================================
-- A sender without a channel
-- ============================================================================

section Closed

variable {h : MessageHandler Ty V} {request : RemoteRequest}

/-- When `Send` throws, nothing is sent. -/
theorem trySend_closed {e : Exception} (hsend : ∀ r, h.send r = .error e)
    (msg : Except Exception (RemoteResponse V)) : ∃ e', h.trySend msg = ([], .error e') := by
  cases msg with
  | error e' => exact ⟨e', rfl⟩
  | ok r => exact ⟨e, by simp only [MessageHandler.trySend, hsend]⟩

theorem catchException_closed {e : Exception} (hsend : ∀ r, h.send r = .error e)
    (caught : Exception) (headers : Option MessageHeaders) :
    (h.catchException caught headers).1 = [] := by
  unfold MessageHandler.catchException
  split
  · rfl
  · rename_i source hsource
    obtain ⟨e', he'⟩ := trySend_closed hsend
      ((RemoteResponse.ofException source).withHeaders headers)
    rw [show h.sendErrorResponse source headers = _ from he']

/-- Neither the response nor the error response leaves the process. -/
theorem handleRequest_closed {e : Exception} (hsend : ∀ r, h.send r = .error e) :
    (h.handleRequest request).sent = [] := by
  unfold MessageHandler.handleRequest
  split
  · exact catchException_closed hsend _ _
  · rename_i response hget
    obtain ⟨e', he'⟩ := trySend_closed hsend
      ((RemoteResponse.ofResponse h.runtime.fullName response).bind
        fun msg => msg.withHeaders request.headers)
    rw [show h.sendResponse response request.headers = _ from he']
    exact catchException_closed hsend _ _

end Closed

-- ============================================================================
-- What holds of every run
-- ============================================================================

namespace Startup

/-- Every delivery is served or on its way to it. -/
def Good (w : Startup V) : Prop :=
  ∀ d ∈ w.deliveries, d.request.headers.isSome = true ∧ (d.receipt = .handling ∨
    ∃ reply, d.receipt = .handled [reply] true ∧ reply.Echoes d.request)

/-- A delivery went unheard, or its handler has ended without a reply. -/
def Missed (w : Startup V) : Prop :=
  ∃ d ∈ w.deliveries, d.receipt = .unheard ∨ ∃ acknowledged, d.receipt = .handled [] acknowledged

section Steps

variable {s : Service Ty V} {w w' : Startup V} {l : StartupLabel Ty V}

/-- What a step does to the deliveries. -/
theorem step_cases (h : w.step s l = some w') :
    ((∀ request, l ≠ .deliver request) ∧ (∀ delivery implementation, l ≠ .handle delivery
      implementation) ∧ w'.deliveries = w.deliveries) ∨
    (∃ request, l = .deliver request ∧ request.headers.isSome = true ∧
      w'.deliveries = w.deliveries ++
        [⟨request, if w.constructed .messageHandler then .handling else .unheard⟩]) ∨
    (∃ delivery implementation request acknowledged, l = .handle delivery implementation ∧
      w.deliveries[delivery]? = some ⟨request, .handling⟩ ∧
      (((w.handler s implementation).handleRequest request).outcome = .ok true →
        acknowledged = true) ∧
      w'.deliveries = w.deliveries.set delivery ⟨request,
        .handled ((w.handler s implementation).handleRequest request).sent acknowledged⟩) := by
  cases l with
  | construct component =>
      simp only [step] at h
      split at h
      · cases h
      · exact Or.inl ⟨nofun, nofun, by rw [← Option.some.inj h]⟩
  | start component =>
      simp only [step] at h
      split at h
      · exact Or.inl ⟨nofun, nofun, by rw [← Option.some.inj h]⟩
      · cases h
  | deliver request =>
      simp only [step] at h
      split at h
      · rename_i hcond
        simp only [Bool.and_eq_true] at hcond
        exact Or.inr (Or.inl ⟨request, rfl, hcond.2, by rw [← Option.some.inj h]⟩)
      · cases h
  | handle delivery implementation =>
      simp only [step] at h
      split at h
      · refine Or.inr (Or.inr ⟨delivery, implementation, _, _, rfl, ‹_›, ?_,
          by rw [← Option.some.inj h]⟩)
        intro houtcome
        rw [houtcome]
      · cases h

theorem Good.step (h : w.Good) (htime : InTime s w l) (hstep : w.step s l = some w') :
    w'.Good := by
  intro d hd
  rcases step_cases hstep with ⟨-, -, heq⟩ | ⟨request, rfl, hheaders, heq⟩ |
    ⟨delivery, implementation, request, acknowledged, rfl, hget, hack, heq⟩
  · rw [heq] at hd
    exact h d hd
  · rw [heq] at hd
    rcases List.mem_append.mp hd with hd | hd
    · exact h d hd
    · rw [List.mem_singleton.mp hd, show w.constructed .messageHandler = true from htime]
      exact ⟨hheaders, Or.inl rfl⟩
  · rw [heq] at hd
    rcases List.mem_or_eq_of_mem_set hd with hd | rfl
    · exact h d hd
    · obtain ⟨hopen, hempty⟩ := htime
      obtain ⟨hheaders, -⟩ := h _ (List.mem_of_getElem? hget)
      obtain ⟨headers, hsome⟩ := Option.isSome_iff_exists.mp hheaders
      have hsend : ∀ r, (w.handler s implementation).send r = .ok () := fun r => by
        simp only [handler, hopen, if_true]
      obtain ⟨reply, hsent, houtcome⟩ := handleRequest_answers hsome hsend (hempty request hget)
      refine ⟨hheaders, Or.inr ⟨reply, ?_, ?_⟩⟩
      · rw [hsent, hack houtcome]
      · apply mem_handleRequest_sent (h := w.handler s implementation)
        rw [hsent]
        exact List.mem_singleton_self reply

/-- What is not in time is missed. -/
theorem missed_of_not_inTime (htime : ¬ InTime s w l) (hstep : w.step s l = some w') :
    w'.Missed := by
  rcases step_cases hstep with ⟨hdeliver, hhandle, -⟩ | ⟨request, rfl, -, heq⟩ |
    ⟨delivery, implementation, request, acknowledged, rfl, hget, -, heq⟩
  · cases l with
    | deliver request => exact absurd rfl (hdeliver request)
    | handle delivery implementation => exact absurd rfl (hhandle delivery implementation)
    | _ => exact absurd trivial htime
  · have hunheard : ¬ w.constructed .messageHandler = true := htime
    rw [if_neg hunheard] at heq
    refine ⟨⟨request, .unheard⟩, ?_, Or.inl rfl⟩
    rw [heq]
    exact List.mem_append_right _ (List.mem_singleton_self _)
  · have hsent : ((w.handler s implementation).handleRequest request).sent = [] := by
      by_cases hopen : w.started .sender = true
      · simp only [InTime, hopen, true_and, not_forall, not_not] at htime
        obtain ⟨request', hget', hempty⟩ := htime
        cases hget.symm.trans hget'
        exact sent_of_throwsEmpty hempty
      · have hsend : ∀ r, (w.handler s implementation).send r = .error .nullReference := fun r => by
          simp only [handler, hopen, Bool.false_eq_true, if_false]
        exact handleRequest_closed hsend
    rw [hsent] at heq
    refine ⟨⟨request, .handled [] acknowledged⟩, ?_, Or.inr ⟨acknowledged, rfl⟩⟩
    rw [heq]
    exact List.mem_set (List.getElem?_eq_some_iff.mp hget).1 _

/-- A delivery that has been missed is not made again. -/
theorem Missed.step (h : w.Missed) (hstep : w.step s l = some w') : w'.Missed := by
  rcases step_cases hstep with ⟨-, -, heq⟩ | ⟨request, -, -, heq⟩ |
    ⟨delivery, implementation, request, acknowledged, -, hget, -, heq⟩ <;> rw [Missed, heq]
  · exact h
  · obtain ⟨d, hd, hmissed⟩ := h
    exact ⟨d, List.mem_append_left _ hd, hmissed⟩
  · apply List.exists_mem_set h hget
    rintro (hunheard | ⟨acknowledged', hhandled⟩)
    · cases hunheard
    · cases hhandled

/-- **Start-up order.** All the requests delivered to a starting service are served iff each
    is delivered to a constructed message handler and answered through a started sender. -/
theorem served_iff (s : Service Ty V) {ls : List (StartupLabel Ty V)}
    (hrun : Transition.run (Startup.step s) Startup.init ls = some w) (hidle : w.Idle) :
    w.AllServed ↔ Transition.Along (Startup.step s) (InTime s) Startup.init ls := by
  refine Transition.last_iff_along (I := Good) (B := Missed) (E := Idle)
    (fun _ _ _ h htime hstep => h.step htime hstep)
    (fun _ _ _ _ htime hstep => missed_of_not_inTime htime hstep)
    (fun _ _ _ h hstep => h.step hstep) ?_ ?_ nofun hrun hidle
  · intro w h hidle d hd
    exact (h d hd).2.resolve_left (hidle d hd)
  · rintro w ⟨d, hd, hmissed⟩ - hserved
    obtain ⟨reply, hreceipt, -⟩ := hserved d hd
    rw [hreceipt] at hmissed
    rcases hmissed with hunheard | ⟨acknowledged, hhandled⟩
    · cases hunheard
    · cases hhandled

end Steps

section TestInterface

/-- The message handler with its dependencies, then the sender, then the listener; or the
    order of the registrations, with the request already in the queue. -/
def startOrder (first : Component) : List (StartupLabel String Bool) :=
  match first with
  | .listener => [.construct .listener, .start .listener, .deliver booleanRequest,
      .construct .sender, .start .sender, .construct .messageHandler, .start .messageHandler]
  | _ => [.construct .messageHandler, .start .messageHandler, .start .sender, .start .listener,
      .deliver booleanRequest,
      .handle 0 fun _ _ => .returned (some (.completed (some true)))]

theorem served_handlerFirst : ∃ w,
    Transition.run (Startup.step testService) Startup.init (startOrder .messageHandler) = some w ∧
      w.AllServed := by
  have hrun : Transition.run (Startup.step testService) Startup.init
      (startOrder .messageHandler) = some _ := rfl
  refine ⟨_, hrun, (served_iff testService hrun ?_).mpr ?_⟩
  · intro d hd
    rw [List.mem_singleton.mp hd]
    nofun
  · refine (Transition.along_cons rfl).mpr ⟨trivial, (Transition.along_cons rfl).mpr ⟨trivial,
      (Transition.along_cons rfl).mpr ⟨trivial, (Transition.along_cons rfl).mpr ⟨trivial,
        (Transition.along_cons rfl).mpr ⟨?_, (Transition.along_cons rfl).mpr ⟨?_, trivial⟩⟩⟩⟩⟩⟩
    · exact (rfl : true = true)
    · refine ⟨rfl, ?_⟩
      rintro request - ⟨m, args, -, -, hthrew⟩
      cases hthrew

/-- All components have started, and the request has reached nobody. -/
theorem served_fails_listenerFirst : ∃ w,
    Transition.run (Startup.step testService) Startup.init (startOrder .listener) = some w ∧
      (∀ component, w.started component = true) ∧ w.Idle ∧
      w.deliveries = [⟨booleanRequest, .unheard⟩] ∧ ¬ w.AllServed := by
  refine ⟨_, rfl, ?_, ?_, rfl, ?_⟩
  · intro component
    cases component <;> rfl
  · intro d hd
    rw [List.mem_singleton.mp hd]
    nofun
  · intro hserved
    obtain ⟨reply, hreceipt, -⟩ := hserved _ (List.mem_singleton_self _)
    cases hreceipt

end TestInterface

end Startup

end Milde.Remoting
