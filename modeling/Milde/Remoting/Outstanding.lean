/-
  Milde.Remoting.Outstanding

  Which calls the registries hold when `Send` may throw (Remoting/Client/).

  `Execute` registers its awaiter and then sends; only `HandleResponse` removes an awaiter,
  in its finally clause.  So while nothing is in progress, a registry holds the calls of its
  process that no response has been handled for (`registered_iff`), those whose `Send` threw
  among them.  These were never sent, so no response comes and they stay for good: the ids
  are those of the outstanding calls as long as no `Send` throws (`outstanding_always`).
-/
import Milde.Remoting.Calls

namespace Milde.Remoting

variable {Ty V : Type}

/-- The clients, the awaiters of the calls whose `Send` threw, and the runs of
    `HandleResponse` with their processes and responses. -/
structure Executors (V : Type) where
  clients : Clients V
  failed : List Nat
  running : List (Nat × RemoteResponse V × Stage)

/-- `Execute` up to `Send`, the end of `Send` with and without an exception, a call of
    `HandleResponse` with any response, and the next step of one. -/
inductive ExecutorLabel (V : Type) where
  | execute (process : Nat) (correlationId methodName : String) (args : List String)
      (routingKey : String)
  | send (awaiter : Nat)
  | sendThrows (awaiter : Nat)
  | handleResponse (process : Nat) (r : RemoteResponse V)
  | resume (run : Nat)

namespace Executors

def init : Executors V := ⟨Clients.empty, [], []⟩

/-- One step; `none` when the label is not enabled. -/
def step (e : Executors V) : ExecutorLabel V → Option (Executors V)
  | .execute process correlationId methodName args routingKey =>
      (e.clients.register process correlationId (RemoteRequest.create methodName args)
        routingKey).map fun clients => { e with clients }
  | .send awaiter =>
      match e.clients.calls[awaiter]? with
      | none => none
      | some call =>
          if call.sent = true ∨ awaiter ∈ e.failed then none
          else some { e with clients := e.clients.markSent awaiter call }
  | .sendThrows awaiter =>
      match e.clients.calls[awaiter]? with
      | none => none
      | some call =>
          if call.sent = true ∨ awaiter ∈ e.failed then none
          else some { e with failed := e.failed ++ [awaiter] }
  | .handleResponse process r => some { e with running := e.running ++ [(process, r, .get)] }
  | .resume run =>
      match e.running[run]? with
      | none => none
      | some (process, r, stage) =>
          (e.clients.handleResponse process r stage).map fun (clients, stage) => { e with
            clients
            running := e.running.set run (process, r, stage) }

/-- `HandleResponse` has returned true for a response to the call. -/
def HandledFor (e : Executors V) (call : Call V) : Prop :=
  ∃ t ∈ e.running, t.1 = call.process ∧ t.2.1.For call ∧ t.2.2 = .ended (some true)

/-- No `Execute` is between `Register` and the end of `Send`, and no `HandleResponse` is in
    progress. -/
def Quiescent (e : Executors V) : Prop :=
  (∀ (i : Nat) call, e.clients.calls[i]? = some call → call.sent = true ∨ i ∈ e.failed) ∧
    ∀ t ∈ e.running, ∃ returned, t.2.2 = .ended returned

/-- The ids in each registry are those of the calls of its process that were sent and whose
    response has not been handled. -/
def Exact (e : Executors V) : Prop :=
  ∀ process correlationId,
    (∃ awaiter, e.clients.registry process correlationId = some awaiter) ↔
      ∃ call ∈ e.clients.calls, call.process = process ∧ call.correlationId = correlationId ∧
        call.sent = true ∧ ¬ e.HandledFor call

def NoSendThrows (_ : Executors V) : ExecutorLabel V → Prop
  | .sendThrows _ => False
  | _ => True

/-- Ids are new when they are made, and nobody answers a request that has not been sent. -/
def IdsSecret (e : Executors V) : ExecutorLabel V → Prop
  | .execute _ correlationId _ _ _ =>
      ∀ t ∈ e.running, t.2.1.headers.correlationId ≠ some correlationId
  | .handleResponse _ r => ∀ call ∈ e.clients.calls, r.For call → call.sent = true
  | _ => True

/-- A call whose `Send` threw was not sent.  A completed call has a run that completed it
    and removes it next or has removed it; and a completed call that is registered has a run
    that is about to remove it. -/
structure Inv (e : Executors V) : Prop where
  wf : e.clients.Wf
  valid : ∀ t ∈ e.running, t.2.2.Valid e.clients t.1 t.2.1
  failed : ∀ i ∈ e.failed, ∃ call, e.clients.calls[i]? = some call ∧ call.sent = false
  ended : ∀ t ∈ e.running, t.2.2 = .ended (some true) →
    ∃ awaiter, (Stage.remove awaiter false).Valid e.clients t.1 t.2.1
  handled : ∀ (i : Nat) call, e.clients.calls[i]? = some call → call.completion ≠ none →
    ∃ t ∈ e.running, t.1 = call.process ∧ t.2.1.For call ∧
      (t.2.2 = .remove i false ∨ t.2.2 = .ended (some true))
  leaving : ∀ p k (i : Nat) call, e.clients.registry p k = some i →
    e.clients.calls[i]? = some call → call.completion ≠ none →
    ∃ t ∈ e.running, ∃ threw, t.2.2 = .remove i threw

/-- No response to a call that was not sent is being or has been handled. -/
def Unanswered (e : Executors V) : Prop :=
  ∀ (i : Nat) call, e.clients.calls[i]? = some call → call.sent = false →
    ∀ t ∈ e.running, ¬ t.2.1.For call

end Executors

-- ============================================================================
-- What each step keeps
-- ============================================================================

section Steps

variable {e e' : Executors V} {l : ExecutorLabel V}

/-- The five things a step does. -/
theorem Executors.step_cases (h : e.step l = some e') :
    (∃ process k name args key clients, l = .execute process k name args key ∧
      e.clients.register process k (RemoteRequest.create name args) key = some clients ∧
      e' = { e with clients }) ∨
    (∃ awaiter call, l = .send awaiter ∧ e.clients.calls[awaiter]? = some call ∧
      awaiter ∉ e.failed ∧ e' = { e with clients := e.clients.markSent awaiter call }) ∨
    (∃ awaiter call, l = .sendThrows awaiter ∧ e.clients.calls[awaiter]? = some call ∧
      call.sent = false ∧ e' = { e with failed := e.failed ++ [awaiter] }) ∨
    (∃ process r, l = .handleResponse process r ∧
      e' = { e with running := e.running ++ [(process, r, .get)] }) ∨
    (∃ run process r stage stage' clients, l = .resume run ∧
      e.running[run]? = some (process, r, stage) ∧
      e.clients.handleResponse process r stage = some (clients, stage') ∧
      e' = { e with clients, running := e.running.set run (process, r, stage') }) := by
  cases l with
  | execute process k name args key =>
      obtain ⟨clients, hreg, rfl⟩ := Option.map_eq_some_iff.mp h
      exact Or.inl ⟨process, k, name, args, key, clients, rfl, hreg, rfl⟩
  | send awaiter =>
      simp only [Executors.step] at h
      split at h
      · cases h
      · rename_i call hcall
        split at h
        · cases h
        · rename_i hnot
          cases h
          exact Or.inr (Or.inl ⟨awaiter, call, rfl, hcall, fun hi => hnot (Or.inr hi), rfl⟩)
  | sendThrows awaiter =>
      simp only [Executors.step] at h
      split at h
      · cases h
      · rename_i call hcall
        split at h
        · cases h
        · rename_i hnot
          cases h
          have hunsent : call.sent = false := Bool.eq_false_iff.mpr fun hi => hnot (Or.inl hi)
          exact Or.inr (Or.inr (Or.inl ⟨awaiter, call, rfl, hcall, hunsent, rfl⟩))
  | handleResponse process r =>
      cases h
      exact Or.inr (Or.inr (Or.inr (Or.inl ⟨process, r, rfl, rfl⟩)))
  | resume run =>
      simp only [Executors.step] at h
      split at h
      · cases h
      · rename_i process r stage hrun
        obtain ⟨⟨clients, stage'⟩, hhandle, rfl⟩ := Option.map_eq_some_iff.mp h
        exact Or.inr (Or.inr (Or.inr (Or.inr
          ⟨run, process, r, stage, stage', clients, rfl, hrun, hhandle, rfl⟩)))

/-- Handling a response leaves alone who a call is and whether it was sent. -/
theorem Clients.handleResponse_sent {s s' : Clients V} {process : Nat} {r : RemoteResponse V}
    {stage stage' : Stage} (h : s.Wf) (hvalid : stage.Valid s process r)
    (hstep : s.handleResponse process r stage = some (s', stage')) (i : Nat) :
    (s'.calls[i]?).map (fun call => (call.correlationId, call.sent)) =
      (s.calls[i]?).map fun call => (call.correlationId, call.sent) := by
  rcases handleResponse_cases h hvalid hstep with ⟨rfl, -⟩ |
    ⟨awaiter, call, -, -, hcall, -, -, -, rfl⟩ | ⟨awaiter, call, threw, -, -, -, -, -, -, rfl⟩
  · rfl
  · by_cases hi : awaiter = i
    · subst hi
      rw [Clients.complete, List.getElem?_set_self (List.getElem?_eq_some_iff.mp hcall).1, hcall]
      rfl
    · rw [Clients.complete, List.getElem?_set_ne hi]
  · rfl

theorem Executors.Inv.execute (h : e.Inv) {process : Nat} {k key : String}
    {request : RemoteRequest} {clients : Clients V} (hheaders : request.headers ≠ none)
    (hreg : e.clients.register process k request key = some clients) :
    Executors.Inv { e with clients } := by
  obtain ⟨hwf, hlater, hcalls⟩ := Clients.register_spec h.wf hheaders hreg
  -- the new call is not completed
  have hold : ∀ (i : Nat) call, clients.calls[i]? = some call → call.completion ≠ none →
      e.clients.calls[i]? = some call := by
    intro i call hcall hdone
    rw [hcalls] at hcall
    rcases List.getElem?_append_singleton hcall with hcall | ⟨-, rfl⟩
    · exact hcall
    · exact absurd rfl hdone
  refine ⟨hwf, fun t ht => (h.valid t ht).later hlater, ?_, ?_, ?_, ?_⟩
  · intro i hi
    obtain ⟨call, hcall, hsent⟩ := h.failed i hi
    refine ⟨call, ?_, hsent⟩
    rw [hcalls]
    exact List.getElem?_append_of_some hcall
  · intro t ht hended
    obtain ⟨awaiter, hvalid⟩ := h.ended t ht hended
    exact ⟨awaiter, hvalid.later hlater⟩
  · exact fun i call hcall hdone => h.handled i call (hold i call hcall hdone) hdone
  · intro p k' i call hentry hcall hdone
    have hcall := hold i call hcall hdone
    rcases Clients.register_registry hreg hentry with hentry | rfl
    · exact h.leaving p k' i call hentry hcall hdone
    · exact absurd (List.getElem?_eq_some_iff.mp hcall).1 (Nat.lt_irrefl _)

theorem Executors.Inv.send (h : e.Inv) {awaiter : Nat} {call : Call V}
    (hcall : e.clients.calls[awaiter]? = some call) (hfailed : awaiter ∉ e.failed) :
    Executors.Inv { e with clients := e.clients.markSent awaiter call } := by
  obtain ⟨hwf, hlater⟩ := Clients.markSent_spec h.wf hcall
  -- a completed call was completed before
  have hold : ∀ (i : Nat) call', (e.clients.calls.set awaiter { call with sent := true })[i]? =
      some call' → call'.completion ≠ none → ∃ old, e.clients.calls[i]? = some old ∧
        old.completion ≠ none ∧ old.process = call'.process ∧
          old.correlationId = call'.correlationId := by
    intro i call' hcall' hdone
    rcases List.getElem?_set_cases hcall' with ⟨rfl, rfl⟩ | ⟨-, hcall'⟩
    · exact ⟨call, hcall, hdone, rfl, rfl⟩
    · exact ⟨call', hcall', hdone, rfl, rfl⟩
  refine ⟨hwf, fun t ht => (h.valid t ht).later hlater, ?_, ?_, ?_, ?_⟩
  · intro i hi
    obtain ⟨other, hother, hsent⟩ := h.failed i hi
    have hne : awaiter ≠ i := by
      rintro rfl
      exact hfailed hi
    exact ⟨other, (List.getElem?_set_ne hne).trans hother, hsent⟩
  · intro t ht hended
    obtain ⟨i, hvalid⟩ := h.ended t ht hended
    exact ⟨i, hvalid.later hlater⟩
  · intro i call' hcall' hdone
    obtain ⟨old, hold_i, hdone, hp, hk⟩ := hold i call' hcall' hdone
    obtain ⟨t, ht, hprocess, hfor, hstage⟩ := h.handled i old hold_i hdone
    exact ⟨t, ht, hprocess.trans hp, hfor.trans (congrArg some hk), hstage⟩
  · intro p k i call' hentry hcall' hdone
    obtain ⟨old, hold_i, hdone, -, -⟩ := hold i call' hcall' hdone
    exact h.leaving p k i old hentry hold_i hdone

theorem Executors.Inv.handleResponse (h : e.Inv) (process : Nat) (r : RemoteResponse V) :
    Executors.Inv { e with running := e.running ++ [(process, r, .get)] } := by
  refine ⟨h.wf, ?_, h.failed, ?_, ?_, ?_⟩
  · intro t ht
    rcases List.mem_append.mp ht with ht | ht
    · exact h.valid t ht
    · rw [List.mem_singleton.mp ht]
      trivial
  · intro t ht hended
    rcases List.mem_append.mp ht with ht | ht
    · exact h.ended t ht hended
    · rw [List.mem_singleton.mp ht] at hended
      cases hended
  · intro i call hcall hdone
    obtain ⟨t, ht, hrest⟩ := h.handled i call hcall hdone
    exact ⟨t, List.mem_append_left _ ht, hrest⟩
  · intro p k i call hentry hcall hdone
    obtain ⟨t, ht, hrest⟩ := h.leaving p k i call hentry hcall hdone
    exact ⟨t, List.mem_append_left _ ht, hrest⟩

section Resume

variable {run process : Nat} {r : RemoteResponse V} {stage stage' : Stage} {clients : Clients V}

/-- A completed call keeps the run that has completed it: the run completes the call now,
    removes it now, or is another one. -/
theorem Executors.Inv.handled_resume (h : e.Inv)
    (hrun : e.running[run]? = some (process, r, stage))
    (hhandle : e.clients.handleResponse process r stage = some (clients, stage')) {i : Nat}
    {call : Call V} (hcall : clients.calls[i]? = some call) (hdone : call.completion ≠ none) :
    ∃ t ∈ e.running.set run (process, r, stage'), t.1 = call.process ∧ t.2.1.For call ∧
      (t.2.2 = .remove i false ∨ t.2.2 = .ended (some true)) := by
  have hvalid := h.valid _ (List.mem_of_getElem? hrun)
  have hopen : ∀ returned, stage ≠ .ended returned := by
    rintro returned rfl
    cases hhandle
  rcases Clients.handleResponse_cases h.wf hvalid hhandle with ⟨rfl, -, hnot, -⟩ |
    ⟨awaiter, old, rfl, rfl, hold, hp, hfor, -, rfl⟩ |
    ⟨awaiter, old, threw, rfl, rfl, -, -, -, -, rfl⟩
  · apply List.exists_mem_set (h.handled i call hcall hdone) hrun
    rintro ⟨-, -, hstage | hstage⟩
    · exact absurd hstage (hnot i false)
    · exact absurd hstage (hopen _)
  · rcases List.getElem?_set_cases hcall with ⟨rfl, rfl⟩ | ⟨-, hcall⟩
    · have hself := List.mem_set (List.getElem?_eq_some_iff.mp hrun).1
        (process, r, Stage.remove awaiter false)
      exact ⟨_, hself, hp.symm, hfor, Or.inl rfl⟩
    · apply List.exists_mem_set (h.handled i call hcall hdone) hrun
      rintro ⟨-, -, hstage | hstage⟩
      · cases hstage
      · cases hstage
  · apply List.exists_mem_set (h.handled i call hcall hdone) hrun
    rintro ⟨hprocess, hfor, hstage | hstage⟩
    · cases hstage
      exact ⟨hprocess, hfor, Or.inr rfl⟩
    · cases hstage

/-- A completed call stays registered only as long as some run has it to remove. -/
theorem Executors.Inv.leaving_resume (h : e.Inv)
    (hrun : e.running[run]? = some (process, r, stage))
    (hhandle : e.clients.handleResponse process r stage = some (clients, stage')) {p i : Nat}
    {k : String} {call : Call V} (hentry : clients.registry p k = some i)
    (hcall : clients.calls[i]? = some call) (hdone : call.completion ≠ none) :
    ∃ t ∈ e.running.set run (process, r, stage'), ∃ threw, t.2.2 = .remove i threw := by
  have hvalid := h.valid _ (List.mem_of_getElem? hrun)
  rcases Clients.handleResponse_cases h.wf hvalid hhandle with ⟨rfl, -, hnot, -⟩ |
    ⟨awaiter, old, rfl, rfl, hold, -, -, -, rfl⟩ |
    ⟨awaiter, old, threw, rfl, rfl, hold, hp, -, -, rfl⟩
  · apply List.exists_mem_set (h.leaving p k i call hentry hcall hdone) hrun
    rintro ⟨threw, hstage⟩
    exact absurd hstage (hnot i threw)
  · rcases List.getElem?_set_cases hcall with ⟨rfl, rfl⟩ | ⟨-, hcall⟩
    · have hself := List.mem_set (List.getElem?_eq_some_iff.mp hrun).1
        (process, r, Stage.remove awaiter false)
      exact ⟨_, hself, false, rfl⟩
    · apply List.exists_mem_set (h.leaving p k i call hentry hcall hdone) hrun
      rintro ⟨threw, hstage⟩
      cases hstage
  · by_cases hremoved : p = process ∧ k = old.correlationId
    · obtain ⟨rfl, rfl⟩ := hremoved
      rw [Clients.setRegistry_self] at hentry
      cases hentry
    · rw [Clients.setRegistry_ne hremoved] at hentry
      apply List.exists_mem_set (h.leaving p k i call hentry hcall hdone) hrun
      rintro ⟨threw', hstage⟩
      cases hstage
      -- the run removes another call than the one of the entry
      obtain ⟨other, hother, hpo, hko⟩ := h.wf.registered p k i hentry
      obtain rfl : old = other := Option.some.inj (hold.symm.trans hother)
      exact absurd ⟨hpo.symm.trans hp, hko.symm⟩ hremoved

theorem Executors.Inv.resume (h : e.Inv) (hrun : e.running[run]? = some (process, r, stage))
    (hhandle : e.clients.handleResponse process r stage = some (clients, stage')) :
    Executors.Inv { e with
      clients
      running := e.running.set run (process, r, stage') } := by
  have hvalid := h.valid _ (List.mem_of_getElem? hrun)
  obtain ⟨hwf, hlater, hvalid'⟩ := Clients.handleResponse_spec h.wf hvalid hhandle
  refine ⟨hwf, ?_, ?_, ?_, fun i call => h.handled_resume hrun hhandle,
    fun p k i call => h.leaving_resume hrun hhandle⟩
  · intro t ht
    rcases List.mem_or_eq_of_mem_set ht with ht | rfl
    · exact (h.valid t ht).later hlater
    · exact hvalid'
  · intro i hi
    obtain ⟨call, hcall, hunsent⟩ := h.failed i hi
    have hsame := Clients.handleResponse_sent h.wf hvalid hhandle i
    rw [hcall, Option.map_some] at hsame
    obtain ⟨call', hcall', heq⟩ := Option.map_eq_some_iff.mp hsame
    exact ⟨call', hcall', (Prod.ext_iff.mp heq).2.trans hunsent⟩
  · intro t ht hended
    rcases List.mem_or_eq_of_mem_set ht with ht | rfl
    · obtain ⟨awaiter, hdone⟩ := h.ended t ht hended
      exact ⟨awaiter, hdone.later hlater⟩
    · rcases Clients.handleResponse_cases h.wf hvalid hhandle with ⟨-, -, -, hnot⟩ |
        ⟨awaiter, call, -, rfl, -⟩ | ⟨awaiter, call, threw, rfl, -⟩
      · exact absurd hended hnot
      · cases hended
      · have hdone : (Stage.remove awaiter false).Valid e.clients process r := hvalid
        exact ⟨awaiter, hdone.later hlater⟩

end Resume

theorem Executors.Inv.step (h : e.Inv) (hstep : e.step l = some e') : e'.Inv := by
  rcases Executors.step_cases hstep with
    ⟨process, k, name, args, key, clients, -, hreg, rfl⟩ | ⟨awaiter, call, -, hcall, hnot, rfl⟩ |
    ⟨awaiter, call, -, hcall, hunsent, rfl⟩ | ⟨process, r, -, rfl⟩ |
    ⟨run, process, r, stage, stage', clients, -, hrun, hhandle, rfl⟩
  · exact h.execute (Option.some_ne_none _) hreg
  · exact h.send hcall hnot
  · refine ⟨h.wf, h.valid, ?_, h.ended, h.handled, h.leaving⟩
    intro i hi
    rcases List.mem_append.mp hi with hi | hi
    · exact h.failed i hi
    · rw [List.mem_singleton.mp hi]
      exact ⟨call, hcall, hunsent⟩
  · exact h.handleResponse process r
  · exact h.resume hrun hhandle

theorem Executors.inv_init : (Executors.init : Executors V).Inv where
  wf := Clients.wf_empty
  valid _ h := by cases h
  failed _ h := by cases h
  ended _ h := by cases h
  handled _ _ h := by cases h
  leaving _ _ _ _ h := by cases h

theorem Executors.unanswered_init : (Executors.init : Executors V).Unanswered := by
  intro i call hcall
  cases hcall

/-- With secret ids there is no response to a call before it was sent. -/
theorem Executors.Unanswered.step (h : e.Inv) (hun : e.Unanswered) (hl : e.IdsSecret l)
    (hstep : e.step l = some e') : e'.Unanswered := by
  rcases Executors.step_cases hstep with
    ⟨process, k, name, args, key, clients, rfl, hreg, rfl⟩ | ⟨awaiter, call, -, hcall, -, rfl⟩ |
    ⟨awaiter, call, -, hcall, hunsent, rfl⟩ | ⟨process, r, rfl, rfl⟩ |
    ⟨run, process, r, stage, stage', clients, -, hrun, hhandle, rfl⟩
  · intro i call hcall hunsent t ht hfor
    obtain ⟨-, -, hcalls⟩ := Clients.register_spec h.wf (Option.some_ne_none _) hreg
    have hcall : clients.calls[i]? = some call := hcall
    rw [hcalls] at hcall
    rcases List.getElem?_append_singleton hcall with hcall | ⟨-, rfl⟩
    · exact hun i call hcall hunsent t ht hfor
    · exact hl t ht hfor
  · intro i other hother hunsent
    rcases List.getElem?_set_cases hother with ⟨rfl, rfl⟩ | ⟨-, hother⟩
    · cases hunsent
    · exact hun i other hother hunsent
  · exact hun
  · intro i call hcall hunsent t ht hfor
    rcases List.mem_append.mp ht with ht | ht
    · exact hun i call hcall hunsent t ht hfor
    · rw [List.mem_singleton.mp ht] at hfor
      have hsent := hl call (List.mem_of_getElem? hcall) hfor
      rw [hsent] at hunsent
      cases hunsent
  · intro i call hcall hunsent t ht hfor
    have hsame := Clients.handleResponse_sent h.wf (h.valid _ (List.mem_of_getElem? hrun)) hhandle i
    rw [show clients.calls[i]? = _ from hcall, Option.map_some] at hsame
    obtain ⟨old, hold, heq⟩ := Option.map_eq_some_iff.mp hsame.symm
    obtain ⟨hk, hs⟩ := Prod.ext_iff.mp heq
    have hfor : t.2.1.For old := hfor.trans (congrArg some hk.symm)
    rcases List.mem_or_eq_of_mem_set ht with ht | rfl
    · exact hun i old hold (hs.trans hunsent) t ht hfor
    · exact hun i old hold (hs.trans hunsent) _ (List.mem_of_getElem? hrun) hfor

/-- Only a `Send` that throws adds to the failed calls. -/
theorem Executors.step_failed (hstep : e.step l = some e') :
    (e.NoSendThrows l ∧ e'.failed = e.failed) ∨
      ¬ e.NoSendThrows l ∧ ∃ awaiter, e'.failed = e.failed ++ [awaiter] := by
  rcases Executors.step_cases hstep with
    ⟨process, k, name, args, key, clients, rfl, -, rfl⟩ | ⟨awaiter, call, rfl, -, -, rfl⟩ |
    ⟨awaiter, call, rfl, -, -, rfl⟩ | ⟨process, r, rfl, rfl⟩ |
    ⟨run, process, r, stage, stage', clients, rfl, -, -, rfl⟩
  · exact Or.inl ⟨trivial, rfl⟩
  · exact Or.inl ⟨trivial, rfl⟩
  · exact Or.inr ⟨id, awaiter, rfl⟩
  · exact Or.inl ⟨trivial, rfl⟩
  · exact Or.inl ⟨trivial, rfl⟩

theorem Executors.failed_eq_nil_step (hnil : e.failed = []) (hl : e.NoSendThrows l)
    (hstep : e.step l = some e') : e'.failed = [] := by
  rcases Executors.step_failed hstep with ⟨-, hfailed⟩ | ⟨hnot, -⟩
  · exact hfailed.trans hnil
  · exact absurd hl hnot

/-- No `Send` has thrown iff none of the steps is one that does. -/
theorem Executors.failed_eq_nil_iff {ls : List (ExecutorLabel V)}
    (hrun : Transition.run Executors.step Executors.init ls = some e) :
    e.failed = [] ↔ Transition.Along Executors.step Executors.NoSendThrows Executors.init ls := by
  refine Transition.last_iff_along (I := fun e : Executors V => e.failed = [])
    (B := fun e : Executors V => e.failed ≠ []) (E := fun _ => True)
    (fun e l e' => Executors.failed_eq_nil_step) ?_ ?_ (fun _ h _ => h) (fun _ h _ => h) rfl hrun
    trivial
  · intro e l e' hnil hl hstep
    rcases Executors.step_failed hstep with ⟨hthrows, -⟩ | ⟨-, awaiter, hfailed⟩
    · exact absurd hthrows hl
    · rw [hfailed]
      exact List.append_ne_nil_of_right_ne_nil _ (List.cons_ne_nil _ _)
  · intro e l e' hne hstep
    rcases Executors.step_failed hstep with ⟨-, hfailed⟩ | ⟨-, awaiter, hfailed⟩
    · rwa [hfailed]
    · rw [hfailed]
      exact List.append_ne_nil_of_left_ne_nil hne _

end Steps

-- ============================================================================
-- What the registries hold
-- ============================================================================

section Registries

variable {e : Executors V}

/-- **While nothing is in progress** the registries hold the calls that no response has been
    handled for, sent or not. -/
theorem Executors.registered_iff (h : e.Inv) (hquiet : e.Quiescent) (process : Nat)
    (correlationId : String) :
    (∃ awaiter, e.clients.registry process correlationId = some awaiter) ↔
      ∃ call ∈ e.clients.calls, call.process = process ∧ call.correlationId = correlationId ∧
        ¬ e.HandledFor call := by
  -- every run of `HandleResponse` is over
  have hover : ∀ t ∈ e.running, ∀ awaiter threw, t.2.2 ≠ .remove awaiter threw := by
    intro t ht awaiter threw hstage
    obtain ⟨returned, hended⟩ := hquiet.2 t ht
    rw [hstage] at hended
    cases hended
  refine ⟨?_, ?_⟩
  · rintro ⟨awaiter, hentry⟩
    obtain ⟨call, hcall, hp, hk⟩ := h.wf.registered process correlationId awaiter hentry
    refine ⟨call, List.mem_of_getElem? hcall, hp, hk, ?_⟩
    rintro ⟨t, ht, hprocess, hfor, hended⟩
    obtain ⟨i, call', hcall', -, hfor', hdone⟩ := h.ended t ht hended
    obtain rfl : i = awaiter := h.wf.distinct i awaiter call' call hcall' hcall
      (Option.some.inj (hfor'.symm.trans hfor))
    obtain rfl : call = call' := Option.some.inj (hcall.symm.trans hcall')
    obtain ⟨t', ht', threw, hstage⟩ :=
      h.leaving process correlationId i call hentry hcall hdone
    exact hover t' ht' i threw hstage
  · rintro ⟨call, hmem, rfl, rfl, hnot⟩
    obtain ⟨i, hcall⟩ := List.mem_iff_getElem?.mp hmem
    refine ⟨i, h.wf.pending i call hcall ?_⟩
    by_contra hdone
    obtain ⟨t, ht, hprocess, hfor, hstage | hstage⟩ := h.handled i call hcall hdone
    · exact hover t ht i false hstage
    · exact hnot ⟨t, ht, hprocess, hfor, hstage⟩

/-- So they hold the outstanding calls iff a response has been handled for each call whose
    `Send` threw. -/
theorem Executors.exact_iff (h : e.Inv) (hquiet : e.Quiescent) :
    e.Exact ↔ ∀ i ∈ e.failed, ∀ call, e.clients.calls[i]? = some call → e.HandledFor call := by
  refine ⟨?_, ?_⟩
  · intro hexact i hi call hcall
    by_contra hnot
    have hregistered := (Executors.registered_iff h hquiet call.process call.correlationId).mpr
      ⟨call, List.mem_of_getElem? hcall, rfl, rfl, hnot⟩
    obtain ⟨other, hmem, -, hk, hsent, -⟩ := (hexact _ _).mp hregistered
    obtain ⟨j, hother⟩ := List.mem_iff_getElem?.mp hmem
    obtain rfl : j = i := h.wf.distinct j i other call hother hcall hk
    obtain ⟨call', hcall', hunsent⟩ := h.failed j hi
    obtain rfl : other = call' := Option.some.inj (hother.symm.trans hcall')
    rw [hsent] at hunsent
    cases hunsent
  · intro hfailed process correlationId
    rw [Executors.registered_iff h hquiet]
    refine ⟨?_, ?_⟩
    · rintro ⟨call, hmem, hp, hk, hnot⟩
      obtain ⟨i, hcall⟩ := List.mem_iff_getElem?.mp hmem
      refine ⟨call, hmem, hp, hk, ?_, hnot⟩
      rcases hquiet.1 i call hcall with hsent | hi
      · exact hsent
      · exact absurd (hfailed i hi call hcall) hnot
    · rintro ⟨call, hmem, hp, hk, -, hnot⟩
      exact ⟨call, hmem, hp, hk, hnot⟩

theorem Executors.exact_of_noneFailed (h : e.Inv) (hfailed : e.failed = [])
    (hquiet : e.Quiescent) : e.Exact := by
  apply (Executors.exact_iff h hquiet).mpr
  intro i hi
  rw [hfailed] at hi
  cases hi

/-- When nobody answers what was not sent, one call whose `Send` threw is too many. -/
theorem Executors.exact_iff_noneFailed (h : e.Inv) (hun : e.Unanswered) (hquiet : e.Quiescent) :
    e.Exact ↔ e.failed = [] := by
  refine ⟨fun hexact => ?_, fun hfailed => Executors.exact_of_noneFailed h hfailed hquiet⟩
  apply List.eq_nil_iff_forall_not_mem.mpr
  intro i hi
  obtain ⟨call, hcall, hunsent⟩ := h.failed i hi
  obtain ⟨t, ht, -, hfor, -⟩ := (Executors.exact_iff h hquiet).mp hexact i hi call hcall
  exact hun i call hcall hunsent t ht hfor

/-- **The registries hold the outstanding calls** in every run in which no `Send` throws;
    and when nobody answers a request that was not sent, in no other run that comes to
    rest. -/
theorem outstanding_always {ls : List (ExecutorLabel V)}
    (hrun : Transition.run Executors.step Executors.init ls = some e) :
    (Transition.Along Executors.step Executors.NoSendThrows Executors.init ls →
      Transition.Always Executors.step (fun e => e.Quiescent → e.Exact) Executors.init ls) ∧
    (Transition.Along Executors.step Executors.IdsSecret Executors.init ls → e.Quiescent →
      (Transition.Always Executors.step (fun e => e.Quiescent → e.Exact) Executors.init ls ↔
        Transition.Along Executors.step Executors.NoSendThrows Executors.init ls)) := by
  have hgood : Transition.Along Executors.step Executors.NoSendThrows Executors.init ls →
      Transition.Always Executors.step (fun e : Executors V => e.Quiescent → e.Exact)
        Executors.init ls := by
    refine Transition.always_of_along
      (I := fun e : Executors V => e.Inv ∧ e.failed = []) ?_
      (fun e h => Executors.exact_of_noneFailed h.1 h.2) ⟨Executors.inv_init, rfl⟩
    rintro e l e' ⟨h, hfailed⟩ hl hstep
    exact ⟨h.step hstep, Executors.failed_eq_nil_step hfailed hl hstep⟩
  refine ⟨hgood, fun hsecret hquiet => ⟨fun halways => ?_, hgood⟩⟩
  have hend : e.Inv ∧ e.Unanswered := by
    refine Transition.run_invariant_along (I := fun e : Executors V => e.Inv ∧ e.Unanswered) ?_
      ⟨Executors.inv_init, Executors.unanswered_init⟩ hsecret hrun
    rintro e l e' ⟨h, hun⟩ hl hstep
    exact ⟨h.step hstep, Executors.Unanswered.step h hun hl hstep⟩
  have hexact := (halways.last hrun) hquiet
  exact (Executors.failed_eq_nil_iff hrun).mp
    ((Executors.exact_iff_noneFailed hend.1 hend.2 hquiet).mp hexact)

/-- The clients of a network are executors whose `Send` never throws. -/
def Network.executors (w : Network Ty V) : Executors V := ⟨w.clients, [], w.running⟩

/-- **A step of the network** is one of its executors, or none. -/
theorem Network.step_executors {w w' : Network Ty V} {l : NetworkLabel Ty V}
    (hstep : w.step l = some w') :
    w'.executors = w.executors ∨
      ∃ l', w.executors.step l' = some w'.executors ∧ w.executors.NoSendThrows l' := by
  rcases Network.step_cases hstep with
    ⟨process, k, name, args, key, clients, -, hreg, rfl⟩ |
    ⟨awaiter, call, -, hcall, hunsent, rfl⟩ | ⟨handler, request, q, -, -, rfl⟩ |
    ⟨process, response, r, -, -, rfl⟩ |
    ⟨run, process, r, stage, stage', clients, -, hrun, hhandle, rfl⟩
  · refine Or.inr ⟨.execute process k name args key, ?_, trivial⟩
    simp only [Executors.step, Network.executors, hreg, Option.map_some]
  · refine Or.inr ⟨.send awaiter, ?_, trivial⟩
    have hnot : ¬ (call.sent = true ∨ awaiter ∈ w.executors.failed) := by
      rw [hunsent]
      exact not_or.mpr ⟨Bool.false_ne_true, List.not_mem_nil⟩
    simp only [Executors.step, show w.executors.clients.calls[awaiter]? = some call from hcall,
      if_neg hnot]
    rfl
  · exact Or.inl rfl
  · exact Or.inr ⟨.handleResponse process r, rfl, trivial⟩
  · refine Or.inr ⟨.resume run, ?_, trivial⟩
    simp only [Executors.step, Network.executors, hrun, hhandle, Option.map_some]

/-- In the network, where `Send` does not fail, the registries hold the outstanding calls
    whenever nothing is in progress. -/
theorem Network.exact_reachable {w : Network Ty V}
    (h : Transition.Reachable Network.step Network.init w) (hquiet : w.executors.Quiescent) :
    w.executors.Exact := by
  have hinv : w.executors.Inv ∧ w.executors.failed = [] := by
    refine h.invariant (I := fun w : Network Ty V => w.executors.Inv ∧ w.executors.failed = [])
      ⟨Executors.inv_init, rfl⟩ ?_
    rintro w l w' ⟨hw, -⟩ hstep
    rcases Network.step_executors hstep with hsame | ⟨l', hstep', -⟩
    · exact ⟨hsame ▸ hw, rfl⟩
    · exact ⟨hw.step hstep', rfl⟩
  exact Executors.exact_of_noneFailed hinv.1 hinv.2 hquiet

end Registries

-- ============================================================================
-- A broken connection
-- ============================================================================

section Connection

/-- A response with the id and nothing else that is looked at. -/
def responseTo (correlationId : String) : RemoteResponse Bool where
  responseType := "System.Boolean"
  response := some true
  headers := { correlationId := some correlationId }
  isFaulted := false
  exception := none

/-- A call, its response, and the same response again. -/
def handledTwice : List (ExecutorLabel Bool) :=
  [.execute 0 "c" "AsyncBooleanMethod" ["true"] "ITestInterface.AsyncBooleanMethod", .send 0,
    .handleResponse 0 (responseTo "c"), .resume 0, .resume 0, .resume 0,
    .handleResponse 0 (responseTo "c"), .resume 1]

def endOf (ls : List (ExecutorLabel Bool)) : Executors Bool :=
  (Transition.run Executors.step Executors.init ls).getD Executors.init

theorem outstanding_always_handledTwice :
    Transition.run Executors.step Executors.init handledTwice = some (endOf handledTwice) ∧
      Transition.Always Executors.step (fun e : Executors Bool => e.Quiescent → e.Exact)
        Executors.init handledTwice := by
  have hrun : Transition.run Executors.step Executors.init handledTwice =
      some (endOf handledTwice) := rfl
  refine ⟨hrun, (outstanding_always hrun).1 ?_⟩
  refine (Transition.along_cons rfl).mpr ⟨trivial, (Transition.along_cons rfl).mpr ⟨trivial, ?_⟩⟩
  refine (Transition.along_cons rfl).mpr ⟨trivial, (Transition.along_cons rfl).mpr ⟨trivial, ?_⟩⟩
  refine (Transition.along_cons rfl).mpr ⟨trivial, (Transition.along_cons rfl).mpr ⟨trivial, ?_⟩⟩
  exact (Transition.along_cons rfl).mpr ⟨trivial, (Transition.along_cons rfl).mpr
    ⟨trivial, trivial⟩⟩

/-- A call whose `Send` threw. -/
def callFailed : List (ExecutorLabel Bool) :=
  [.execute 0 "c" "AsyncBooleanMethod" ["true"] "ITestInterface.AsyncBooleanMethod",
    .sendThrows 0]

/-- It is over, was not sent, and stays registered. -/
theorem not_exact_callFailed :
    Transition.run Executors.step Executors.init callFailed = some (endOf callFailed) ∧
      (endOf callFailed).Quiescent ∧
      (endOf callFailed).clients.registry 0 "c" = some 0 ∧
      (∀ call ∈ (endOf callFailed).clients.calls, call.sent = false) ∧
      ¬ (endOf callFailed).Exact := by
  have hunsent : ∀ call ∈ (endOf callFailed).clients.calls, call.sent = false := by
    intro call hcall
    rw [List.mem_singleton.mp hcall]
  refine ⟨rfl, ⟨?_, ?_⟩, rfl, hunsent, ?_⟩
  · intro i call hcall
    have hlt : i < 1 := (List.getElem?_eq_some_iff.mp hcall).1
    obtain rfl : i = 0 := by omega
    exact Or.inr (by decide)
  · intro t ht
    cases ht
  · intro hexact
    obtain ⟨call, hcall, -, -, hsent, -⟩ := (hexact 0 "c").mp ⟨0, rfl⟩
    rw [hunsent call hcall] at hsent
    cases hsent

end Connection

end Milde.Remoting
