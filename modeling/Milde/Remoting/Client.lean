/-
  Milde.Remoting.Client

  The client processes: `RemoteProcedureExecutor`, `ResponseAwaitersRegistry` and
  `ResponseAwaiter` (Remoting/Client/).

  A call is its awaiter together with what `Execute` has done for it; a registry maps
  correlation ids to awaiters, which are named by their position among the calls.  Many
  `HandleResponse` runs may be under way at once, so a run is a sequence of steps on the
  shared state (`Stage`): `Get`, `SetResult`, `SetException` in the catch clause, `Remove`
  in the finally clause.
-/
import Mathlib.Logic.Function.Basic
import Milde.Common.Lists
import Milde.Remoting.ServiceProxy

namespace Milde.Remoting

variable {V : Type}

/-- How the task of an awaiter has completed. -/
inductive Completion (V : Type) where
  | result (r : RemoteResponse V)
  | exception (e : Exception)

/-- An awaiter and its call: the process whose registry it is in, the request as `Execute`
    sends it, and whether it has been sent. -/
structure Call (V : Type) where
  process : Nat
  correlationId : String
  request : RemoteRequest
  sent : Bool
  completion : Option (Completion V)

structure Clients (V : Type) where
  calls : List (Call V)
  registry : Nat → String → Option Nat

/-- Where a run of `HandleResponse` is.  It ends with a result or, at `none`, with an
    exception. -/
inductive Stage where
  | get
  | set (awaiter : Nat)
  | setException (awaiter : Nat)
  | remove (awaiter : Nat) (threw : Bool)
  | ended (returned : Option Bool)
deriving DecidableEq, Repr

namespace Clients

def empty : Clients V := ⟨[], fun _ _ => none⟩

/-- One registry has changed at one id. -/
def setRegistry (s : Clients V) (process : Nat) (correlationId : String) (entry : Option Nat) :
    Clients V :=
  { s with
    registry := Function.update s.registry process
      (Function.update (s.registry process) correlationId entry) }

/-- `Execute` up to `Send`: `Register` makes an awaiter with an id of its own and adds it,
    and the request gets its headers. -/
def register (s : Clients V) (process : Nat) (correlationId : String) (request : RemoteRequest)
    (routingKey : String) : Option (Clients V) :=
  if s.calls.any (fun call => call.correlationId = correlationId) then none
  else
    let awaiter := s.calls.length
    let call : Call V :=
      ⟨process, correlationId, request.setHeaders correlationId routingKey, false, none⟩
    let s := { s with calls := s.calls ++ [call] }
    -- `TryAdd`
    if (s.registry process correlationId).isNone then
      some (s.setRegistry process correlationId (some awaiter))
    else some s

/-- `Send` has returned. -/
def markSent (s : Clients V) (awaiter : Nat) (call : Call V) : Clients V :=
  { s with calls := s.calls.set awaiter { call with sent := true } }

/-- The awaiter's task completes. -/
def complete (s : Clients V) (awaiter : Nat) (call : Call V) (c : Completion V) : Clients V :=
  { s with calls := s.calls.set awaiter { call with completion := some c } }

/-- One step of `HandleResponse`.  `SetResult` and `SetException` throw when the task has
    completed already; a null id makes `TryGetValue` throw. -/
def handleResponse (s : Clients V) (process : Nat) (r : RemoteResponse V) :
    Stage → Option (Clients V × Stage)
  | .get =>
      match r.headers.correlationId with
      | none => some (s, .ended none)
      | some correlationId =>
          match s.registry process correlationId with
          | none => some (s, .ended (some false))
          | some awaiter => some (s, .set awaiter)
  | .set awaiter =>
      match s.calls[awaiter]? with
      | none => none
      | some call =>
          if call.completion.isSome then some (s, .setException awaiter)
          else some (s.complete awaiter call (.result r), .remove awaiter false)
  | .setException awaiter =>
      match s.calls[awaiter]? with
      | none => none
      | some call =>
          if call.completion.isSome then some (s, .remove awaiter true)
          else some (s.complete awaiter call (.exception (.invalidOperation
            "An attempt was made to transition a task to a final state when it had already completed.")),
              .remove awaiter false)
  | .remove awaiter threw =>
      match s.calls[awaiter]? with
      | none => none
      | some call =>
          some (s.setRegistry process call.correlationId none,
            .ended (if threw then none else some true))
  | .ended _ => none

end Clients

-- ============================================================================
-- The registries
-- ============================================================================

/-- The response is for the call. -/
def RemoteResponse.For (r : RemoteResponse V) (call : Call V) : Prop :=
  r.headers.correlationId = some call.correlationId

/-- No two calls have one id, the registries lead to the calls with their ids, every call
    that has not completed is registered, and requests carry the ids of their calls. -/
structure Clients.Wf (s : Clients V) : Prop where
  distinct : ∀ (i j : Nat) call call', s.calls[i]? = some call → s.calls[j]? = some call' →
    call.correlationId = call'.correlationId → i = j
  registered : ∀ p k awaiter, s.registry p k = some awaiter →
    ∃ call, s.calls[awaiter]? = some call ∧ call.process = p ∧ call.correlationId = k
  pending : ∀ (awaiter : Nat) call, s.calls[awaiter]? = some call → call.completion = none →
    s.registry call.process call.correlationId = some awaiter
  addressed : ∀ (awaiter : Nat) call, s.calls[awaiter]? = some call →
    ∃ headers, call.request.headers = some headers ∧
      headers.correlationId = some call.correlationId

/-- What a run of `HandleResponse` knows of its awaiter. -/
def Stage.Valid (s : Clients V) (process : Nat) (r : RemoteResponse V) : Stage → Prop
  | .get => True
  | .set awaiter => ∃ call, s.calls[awaiter]? = some call ∧ call.process = process ∧ r.For call
  | .setException awaiter => ∃ call, s.calls[awaiter]? = some call ∧ call.process = process ∧
      r.For call ∧ call.completion ≠ none
  | .remove awaiter _ => ∃ call, s.calls[awaiter]? = some call ∧ call.process = process ∧
      r.For call ∧ call.completion ≠ none
  | .ended _ => True

/-- Time passes: calls stay what they are, and what has completed stays completed. -/
def Clients.Later (s s' : Clients V) : Prop :=
  ∀ (awaiter : Nat) call, s.calls[awaiter]? = some call → ∃ call', s'.calls[awaiter]? = some call' ∧
    call'.process = call.process ∧ call'.correlationId = call.correlationId ∧
    call'.request = call.request ∧ (call.sent = true → call'.sent = true) ∧
    ∀ c, call.completion = some c → call'.completion = some c

section Clients

variable {s s' s'' : Clients V} {process : Nat} {r : RemoteResponse V} {stage stage' : Stage}
  {awaiter : Nat} {call : Call V}

theorem Clients.Later.refl (s : Clients V) : s.Later s :=
  fun _ call h => ⟨call, h, rfl, rfl, rfl, id, fun _ h => h⟩

theorem Clients.Later.trans (h : s.Later s') (h' : s'.Later s'') : s.Later s'' := by
  intro awaiter call hcall
  obtain ⟨call', hcall', hp, hk, hr, hs, hc⟩ := h awaiter call hcall
  obtain ⟨call'', hcall'', hp', hk', hr', hs', hc'⟩ := h' awaiter call' hcall'
  exact ⟨call'', hcall'', hp'.trans hp, hk'.trans hk, hr'.trans hr, fun h => hs' (hs h),
    fun c h => hc' c (hc c h)⟩

/-- What a run knows stays true. -/
theorem Stage.Valid.later (h : stage.Valid s process r) (hlater : s.Later s') :
    stage.Valid s' process r := by
  have hfound : ∀ (awaiter : Nat) call, s.calls[awaiter]? = some call → call.process = process →
      r.For call → ∃ call', s'.calls[awaiter]? = some call' ∧ call'.process = process ∧
        r.For call' ∧ (call.completion ≠ none → call'.completion ≠ none) := by
    intro awaiter call hcall hp hr
    obtain ⟨call', hcall', hp', hk', -, -, hc⟩ := hlater awaiter call hcall
    refine ⟨call', hcall', hp'.trans hp, ?_, fun hne => ?_⟩
    · show r.headers.correlationId = some call'.correlationId
      rw [hk']
      exact hr
    · obtain ⟨c, hcomp⟩ := Option.ne_none_iff_exists'.mp hne
      rw [hc c hcomp]
      exact Option.some_ne_none c
  cases stage with
  | get => trivial
  | set awaiter =>
      obtain ⟨call, hcall, hp, hr⟩ := h
      obtain ⟨call', hcall', hp', hr', -⟩ := hfound awaiter call hcall hp hr
      exact ⟨call', hcall', hp', hr'⟩
  | setException awaiter =>
      obtain ⟨call, hcall, hp, hr, hne⟩ := h
      obtain ⟨call', hcall', hp', hr', hne'⟩ := hfound awaiter call hcall hp hr
      exact ⟨call', hcall', hp', hr', hne' hne⟩
  | remove awaiter threw =>
      obtain ⟨call, hcall, hp, hr, hne⟩ := h
      obtain ⟨call', hcall', hp', hr', hne'⟩ := hfound awaiter call hcall hp hr
      exact ⟨call', hcall', hp', hr', hne' hne⟩
  | ended returned => trivial

/-- Replacing a call by one that differs in `sent` or by a first completion. -/
theorem Clients.later_set {call' : Call V} (hcall : s.calls[awaiter]? = some call)
    (hp : call'.process = call.process) (hk : call'.correlationId = call.correlationId)
    (hr : call'.request = call.request) (hs : call.sent = true → call'.sent = true)
    (hc : ∀ c, call.completion = some c → call'.completion = some c) :
    s.Later { s with calls := s.calls.set awaiter call' } := by
  intro i other hother
  by_cases hi : i = awaiter
  · subst hi
    obtain rfl : call = other := Option.some.inj (hcall.symm.trans hother)
    exact ⟨call', List.getElem?_set_self (List.getElem?_eq_some_iff.mp hcall).1, hp, hk, hr, hs, hc⟩
  · exact ⟨other, (List.getElem?_set_ne (Ne.symm hi)).trans hother, rfl, rfl, rfl, id, fun _ h => h⟩

/-- `Wf` looks at what a change of `sent` and a completion leave alone, and at the calls
    that have not completed. -/
theorem Clients.Wf.set (h : s.Wf) {call' : Call V} (hcall : s.calls[awaiter]? = some call)
    (hp : call'.process = call.process) (hk : call'.correlationId = call.correlationId)
    (hr : call'.request = call.request)
    (hc : call'.completion = none → call.completion = none) :
    Clients.Wf { s with calls := s.calls.set awaiter call' } := by
  have hlt := (List.getElem?_eq_some_iff.mp hcall).1
  -- every call of the new list was there, up to the fields that change
  have hold : ∀ (i : Nat) other, (s.calls.set awaiter call')[i]? = some other →
      ∃ old, s.calls[i]? = some old ∧ other.process = old.process ∧
        other.correlationId = old.correlationId ∧ other.request = old.request ∧
        (other.completion = none → old.completion = none) := by
    intro i other hother
    rcases List.getElem?_set_cases hother with ⟨rfl, rfl⟩ | ⟨-, hother⟩
    · exact ⟨call, hcall, hp, hk, hr, hc⟩
    · exact ⟨other, hother, rfl, rfl, rfl, id⟩
  refine ⟨?_, ?_, ?_, ?_⟩
  · intro i j c c' hi hj heq
    obtain ⟨old, hold_i, -, hk_i, -⟩ := hold i c hi
    obtain ⟨old', hold_j, -, hk_j, -⟩ := hold j c' hj
    exact h.distinct i j old old' hold_i hold_j (by rw [← hk_i, ← hk_j, heq])
  · intro p k i hreg
    obtain ⟨old, hold_i, hpo, hko⟩ := h.registered p k i hreg
    by_cases hi : awaiter = i
    · subst hi
      obtain rfl : call = old := Option.some.inj (hcall.symm.trans hold_i)
      exact ⟨call', List.getElem?_set_self hlt, hp.trans hpo, hk.trans hko⟩
    · exact ⟨old, (List.getElem?_set_ne hi).trans hold_i, hpo, hko⟩
  · intro i other hother hnone
    obtain ⟨old, hold_i, hpo, hko, -, hco⟩ := hold i other hother
    rw [hpo, hko]
    exact h.pending i old hold_i (hco hnone)
  · intro i other hother
    obtain ⟨old, hold_i, -, hko, hro, -⟩ := hold i other hother
    rw [hro, hko]
    exact h.addressed i old hold_i

@[simp] theorem Clients.setRegistry_self (p : Nat) (k : String) (entry : Option Nat) :
    (s.setRegistry p k entry).registry p k = entry := by
  simp [Clients.setRegistry]

theorem Clients.setRegistry_ne {p p' : Nat} {k k' : String} (hne : ¬ (p' = p ∧ k' = k))
    (entry : Option Nat) : (s.setRegistry p k entry).registry p' k' = s.registry p' k' := by
  by_cases hp : p' = p
  · subst hp
    have hk : k' ≠ k := fun hk => hne ⟨rfl, hk⟩
    simp [Clients.setRegistry, hk]
  · simp [Clients.setRegistry, hp]

/-- A completed call leaves its registry. -/
theorem Clients.Wf.remove (h : s.Wf) (hcall : s.calls[awaiter]? = some call)
    (hdone : call.completion ≠ none) :
    (s.setRegistry call.process call.correlationId none).Wf := by
  refine ⟨h.distinct, ?_, ?_, h.addressed⟩
  · intro p k i hreg
    by_cases hself : p = call.process ∧ k = call.correlationId
    · obtain ⟨rfl, rfl⟩ := hself
      rw [Clients.setRegistry_self] at hreg
      cases hreg
    · rw [Clients.setRegistry_ne hself] at hreg
      exact h.registered p k i hreg
  · intro i other hother hnone
    rw [Clients.setRegistry_ne]
    · exact h.pending i other hother hnone
    · rintro ⟨-, hk⟩
      obtain rfl : i = awaiter := h.distinct i awaiter other call hother hcall hk
      obtain rfl : call = other := Option.some.inj (hcall.symm.trans hother)
      exact hdone hnone

/-- A step of `HandleResponse`: it moves on without an effect, completes the call that the
    response is for, or removes it when it has completed. -/
theorem Clients.handleResponse_cases (h : s.Wf) (hvalid : stage.Valid s process r)
    (hstep : s.handleResponse process r stage = some (s', stage')) :
    (s' = s ∧ stage'.Valid s process r ∧ (∀ awaiter threw, stage ≠ .remove awaiter threw) ∧
      stage' ≠ .ended (some true)) ∨
    (∃ awaiter call, stage = .set awaiter ∧ stage' = .remove awaiter false ∧
      s.calls[awaiter]? = some call ∧ call.process = process ∧ r.For call ∧
      call.completion = none ∧ s' = s.complete awaiter call (.result r)) ∨
    (∃ awaiter call threw, stage = .remove awaiter threw ∧
      stage' = .ended (if threw then none else some true) ∧
      s.calls[awaiter]? = some call ∧ call.process = process ∧ r.For call ∧
      call.completion ≠ none ∧ s' = s.setRegistry process call.correlationId none) := by
  cases stage with
  | get =>
      left
      simp only [Clients.handleResponse] at hstep
      split at hstep
      · cases hstep
        exact ⟨rfl, trivial, nofun, nofun⟩
      · rename_i correlationId hid
        split at hstep
        · cases hstep
          exact ⟨rfl, trivial, nofun, nofun⟩
        · rename_i awaiter hreg
          cases hstep
          obtain ⟨call, hcall, hp, hk⟩ := h.registered _ _ _ hreg
          exact ⟨rfl, ⟨call, hcall, hp, hid.trans (congrArg some hk.symm)⟩, nofun, nofun⟩
  | set awaiter =>
      obtain ⟨call, hcall, hp, hr⟩ := hvalid
      simp only [Clients.handleResponse, hcall] at hstep
      split at hstep
      · rename_i hdone
        cases hstep
        exact Or.inl ⟨rfl, ⟨call, hcall, hp, hr, Option.isSome_iff_ne_none.mp hdone⟩, nofun, nofun⟩
      · rename_i hopen
        cases hstep
        exact Or.inr (Or.inl ⟨awaiter, call, rfl, rfl, hcall, hp, hr,
          by simpa using hopen, rfl⟩)
  | setException awaiter =>
      obtain ⟨call, hcall, hp, hr, hdone⟩ := hvalid
      simp only [Clients.handleResponse, hcall] at hstep
      rw [if_pos (Option.isSome_iff_ne_none.mpr hdone)] at hstep
      cases hstep
      exact Or.inl ⟨rfl, ⟨call, hcall, hp, hr, hdone⟩, nofun, nofun⟩
  | remove awaiter threw =>
      obtain ⟨call, hcall, hp, hr, hdone⟩ := hvalid
      simp only [Clients.handleResponse, hcall, Option.some.injEq, Prod.mk.injEq] at hstep
      obtain ⟨rfl, rfl⟩ := hstep
      exact Or.inr (Or.inr ⟨awaiter, call, threw, rfl, rfl, hcall, hp, hr, hdone, rfl⟩)
  | ended returned => cases hstep

/-- Every step keeps the registries in order, loses nothing, and keeps what the run knows. -/
theorem Clients.handleResponse_spec (h : s.Wf) (hvalid : stage.Valid s process r)
    (hstep : s.handleResponse process r stage = some (s', stage')) :
    s'.Wf ∧ s.Later s' ∧ stage'.Valid s' process r := by
  rcases handleResponse_cases h hvalid hstep with ⟨rfl, hvalid', -⟩ |
    ⟨awaiter, call, -, rfl, hcall, hp, hr, hopen, rfl⟩ |
    ⟨awaiter, call, threw, -, rfl, hcall, hp, hr, hdone, rfl⟩
  · exact ⟨h, Later.refl s', hvalid'⟩
  · refine ⟨h.set hcall rfl rfl rfl (fun _ => hopen), later_set hcall rfl rfl rfl id ?_, ?_⟩
    · intro c hc
      rw [hopen] at hc
      cases hc
    · exact ⟨_, List.getElem?_set_self (List.getElem?_eq_some_iff.mp hcall).1, hp, hr,
        Option.some_ne_none _⟩
  · subst hp
    exact ⟨h.remove hcall hdone, fun i c hc => ⟨c, hc, rfl, rfl, rfl, id, fun _ h => h⟩, trivial⟩

/-- Handling a response leaves the other calls and their registrations alone. -/
theorem Clients.handleResponse_frame (h : s.Wf) (hvalid : stage.Valid s process r)
    (hstep : s.handleResponse process r stage = some (s', stage')) {other : Call V} {i : Nat}
    (hother : s.calls[i]? = some other) (hne : ¬ (other.process = process ∧ r.For other)) :
    s'.calls[i]? = some other ∧
      s'.registry other.process other.correlationId =
        s.registry other.process other.correlationId := by
  have hdiff : ∀ (awaiter : Nat) call, s.calls[awaiter]? = some call → call.process = process →
      r.For call → awaiter ≠ i := by
    rintro awaiter call hcall hp hr rfl
    obtain rfl : call = other := Option.some.inj (hcall.symm.trans hother)
    exact hne ⟨hp, hr⟩
  rcases handleResponse_cases h hvalid hstep with ⟨rfl, -⟩ |
    ⟨awaiter, call, -, -, hcall, hp, hr, -, rfl⟩ |
    ⟨awaiter, call, threw, -, -, hcall, hp, hr, -, rfl⟩
  · exact ⟨hother, rfl⟩
  · exact ⟨(List.getElem?_set_ne (hdiff awaiter call hcall hp hr)).trans hother, rfl⟩
  · refine ⟨hother, Clients.setRegistry_ne ?_ _⟩
    rintro ⟨hp', hk⟩
    refine hne ⟨hp', ?_⟩
    show r.headers.correlationId = some other.correlationId
    rw [hk]
    exact hr

/-- The calls after a step: at most one has completed, nothing else has changed. -/
theorem Clients.handleResponse_calls (h : s.Wf) (hvalid : stage.Valid s process r)
    (hstep : s.handleResponse process r stage = some (s', stage')) {i : Nat}
    (hcall : s'.calls[i]? = some call) :
    ∃ old, s.calls[i]? = some old ∧ call.correlationId = old.correlationId ∧
      call.request = old.request ∧ (call.completion = none → call = old) ∧
      ∀ c, call.completion = some c → old.completion = some c ∨ c = .result r ∧ r.For call := by
  rcases handleResponse_cases h hvalid hstep with ⟨rfl, -⟩ |
    ⟨awaiter, old, -, -, hold, -, hfor, -, rfl⟩ | ⟨awaiter, old, threw, -, -, hold, -, -, -, rfl⟩
  · exact ⟨call, hcall, rfl, rfl, fun _ => rfl, fun _ hc => Or.inl hc⟩
  · have hcall : (s.calls.set awaiter { old with completion := some (.result r) })[i]? =
      some call := hcall
    rcases List.getElem?_set_cases hcall with ⟨rfl, rfl⟩ | ⟨-, hcall⟩
    · refine ⟨old, hold, rfl, rfl, fun hopen => ?_, fun c hc => ?_⟩
      · cases hopen
      · cases hc
        exact Or.inr ⟨rfl, hfor⟩
    · exact ⟨call, hcall, rfl, rfl, fun _ => rfl, fun _ hc => Or.inl hc⟩
  · exact ⟨call, hcall, rfl, rfl, fun _ => rfl, fun _ hc => Or.inl hc⟩

/-- A run for a pending call finds it or completes it. -/
theorem Clients.handleResponse_pending (h : s.Wf) (hvalid : stage.Valid s process r)
    (hstep : s.handleResponse process r stage = some (s', stage')) {i : Nat}
    (hcall : s.calls[i]? = some call) (hopen : call.completion = none)
    (hp : call.process = process) (hr : r.For call) :
    stage' = .set i ∨ ∃ call', s'.calls[i]? = some call' ∧ call'.completion ≠ none := by
  have hsame : ∀ (awaiter : Nat) call', s.calls[awaiter]? = some call' → r.For call' →
      awaiter = i :=
    fun awaiter call' hcall' hr' => h.distinct awaiter i call' call hcall' hcall
      (Option.some.inj (hr'.symm.trans hr))
  have hnot : ∀ (awaiter : Nat) call', s.calls[awaiter]? = some call' → r.For call' →
      call'.completion = none := by
    intro awaiter call' hcall' hr'
    obtain rfl := hsame awaiter call' hcall' hr'
    obtain rfl : call = call' := Option.some.inj (hcall.symm.trans hcall')
    exact hopen
  cases stage with
  | get =>
      left
      have hreg := h.pending i call hcall hopen
      rw [hp] at hreg
      simp only [Clients.handleResponse, show r.headers.correlationId = _ from hr, hreg,
        Option.some.injEq, Prod.mk.injEq] at hstep
      exact hstep.2.symm
  | set awaiter =>
      obtain ⟨call', hcall', -, hr'⟩ := hvalid
      obtain rfl := hsame awaiter call' hcall' hr'
      have hdone : ¬ call'.completion.isSome = true := by simp [hnot awaiter call' hcall' hr']
      simp only [Clients.handleResponse, hcall', if_neg hdone, Option.some.injEq,
        Prod.mk.injEq] at hstep
      obtain ⟨rfl, -⟩ := hstep
      exact Or.inr ⟨_, List.getElem?_set_self (List.getElem?_eq_some_iff.mp hcall').1,
        Option.some_ne_none _⟩
  | setException awaiter =>
      obtain ⟨call', hcall', -, hr', hdone⟩ := hvalid
      exact absurd (hnot awaiter call' hcall' hr') hdone
  | remove awaiter threw =>
      obtain ⟨call', hcall', -, hr', hdone⟩ := hvalid
      exact absurd (hnot awaiter call' hcall' hr') hdone
  | ended returned => cases hstep

/-- A new call is pending in its registry, next to all others. -/
theorem Clients.register_spec (h : s.Wf) {k key : String} {request : RemoteRequest}
    (hheaders : request.headers ≠ none) (hreg : s.register process k request key = some s') :
    s'.Wf ∧ s.Later s' ∧
      s'.calls = s.calls ++ [⟨process, k, request.setHeaders k key, false, none⟩] := by
  unfold Clients.register at hreg
  split at hreg
  · cases hreg
  · rename_i hfresh
    have hfresh : ∀ (i : Nat) call, s.calls[i]? = some call → call.correlationId ≠ k := by
      intro i call hcall heq
      refine hfresh (List.any_eq_true.mpr ⟨call, List.mem_of_getElem? hcall, ?_⟩)
      simpa using heq
    have hnone : s.registry process k = none := by
      cases hentry : s.registry process k with
      | none => rfl
      | some i =>
          obtain ⟨call, hcall, -, hk⟩ := h.registered process k i hentry
          exact absurd hk (hfresh i call hcall)
    dsimp only at hreg
    rw [if_pos (Option.isNone_iff_eq_none.mpr hnone)] at hreg
    cases hreg
    refine ⟨⟨?_, ?_, ?_, ?_⟩, ?_, rfl⟩
    · intro i j c c' hi hj heq
      rcases List.getElem?_append_singleton hi with hi | ⟨rfl, rfl⟩
      · rcases List.getElem?_append_singleton hj with hj | ⟨rfl, rfl⟩
        · exact h.distinct i j c c' hi hj heq
        · exact absurd heq (hfresh i c hi)
      · rcases List.getElem?_append_singleton hj with hj | ⟨rfl, rfl⟩
        · exact absurd heq.symm (hfresh j c' hj)
        · rfl
    · intro p' k' i hentry
      by_cases hself : p' = process ∧ k' = k
      · obtain ⟨rfl, rfl⟩ := hself
        rw [Clients.setRegistry_self] at hentry
        obtain rfl : s.calls.length = i := Option.some.inj hentry
        exact ⟨_, List.getElem?_concat_length, rfl, rfl⟩
      · rw [Clients.setRegistry_ne hself] at hentry
        obtain ⟨call, hcall, hp, hk⟩ := h.registered p' k' i hentry
        exact ⟨call, List.getElem?_append_of_some hcall, hp, hk⟩
    · intro i call hcall hopen
      rcases List.getElem?_append_singleton hcall with hcall | ⟨rfl, rfl⟩
      · rw [Clients.setRegistry_ne fun hself => hfresh i call hcall hself.2]
        exact h.pending i call hcall hopen
      · exact Clients.setRegistry_self ..
    · intro i call hcall
      rcases List.getElem?_append_singleton hcall with hcall | ⟨rfl, rfl⟩
      · exact h.addressed i call hcall
      · obtain ⟨headers, hsome⟩ := Option.ne_none_iff_exists'.mp hheaders
        exact ⟨_, congrArg (Option.map _) hsome, rfl⟩
    · exact fun i call hcall =>
        ⟨call, List.getElem?_append_of_some hcall, rfl, rfl, rfl, id, fun _ h => h⟩

/-- Of the registrations only the one of the new call is new. -/
theorem Clients.register_registry {k key : String} {request : RemoteRequest}
    (hreg : s.register process k request key = some s') {p : Nat} {k' : String} {i : Nat}
    (hentry : s'.registry p k' = some i) : s.registry p k' = some i ∨ i = s.calls.length := by
  unfold Clients.register at hreg
  split at hreg
  · cases hreg
  · dsimp only at hreg
    split at hreg
    · cases hreg
      by_cases hself : p = process ∧ k' = k
      · obtain ⟨rfl, rfl⟩ := hself
        rw [Clients.setRegistry_self] at hentry
        exact Or.inr (Option.some.inj hentry).symm
      · rw [Clients.setRegistry_ne hself] at hentry
        exact Or.inl hentry
    · cases hreg
      exact Or.inl hentry

/-- Sending changes nothing but that. -/
theorem Clients.markSent_spec (h : s.Wf) (hcall : s.calls[awaiter]? = some call) :
    (s.markSent awaiter call).Wf ∧ s.Later (s.markSent awaiter call) :=
  ⟨h.set hcall rfl rfl rfl id, later_set hcall rfl rfl rfl (fun _ => rfl) fun _ h => h⟩

theorem Clients.wf_empty : (Clients.empty : Clients V).Wf where
  distinct _ _ _ _ h := by cases h
  registered _ _ _ h := by cases h
  pending _ _ h := by cases h
  addressed _ _ h := by cases h

end Clients

end Milde.Remoting
