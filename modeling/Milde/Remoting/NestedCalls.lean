/-
  Milde.Remoting.NestedCalls

  Services that call each other.

  `ServiceProxy.Invoke` blocks its thread until the response is there, and
  `MessageHandler.HandleRequest` blocks the only dispatch slot of its listener until the
  method has finished (Remoting/Client/ServiceProxy.cs, Remoting/Service/MessageHandler.cs).
  So a service whose method waits for a call handles no request meanwhile, and services
  that wait for each other, or one that waits for itself, wait for ever
  (`deadlock_free_iff`).

  A method is whatever its steps do: between two calls it may start the next one or finish.
  The requests that wait for a service may be delivered in any order.
-/
import Milde.Common.Run
import Milde.Common.WaitFor
import Mathlib.Data.Fintype.EquivFin
import Mathlib.Logic.Function.Basic

namespace Milde.Remoting

open Relation WaitFor

variable {S : Type}

/-- Who makes a call: a client, or the method that a service is running. -/
inductive Caller (S : Type) where
  | client (i : Nat)
  | service (s : S)
deriving DecidableEq, Repr

/-- Where an open call is: its request in the queue, with the handler, or its response on
    the way. -/
inductive CallStage where
  | queued
  | handled
  | answered
deriving DecidableEq, Repr

structure OpenCall (S : Type) where
  target : S
  stage : CallStage
deriving DecidableEq, Repr

/-- The client calls that are still to be made and how many have been, the open call of each
    caller, and whose request each handler is busy with. -/
structure CallNet (S : Type) where
  toCall : List S
  called : Nat
  calls : Caller S → Option (OpenCall S)
  handling : S → Option (Caller S)

inductive CallLabel (S : Type) where
  | clientCall (i : Nat)
  | call (s t : S)
  | deliver (c : Caller S)
  | finish (s : S)
  | deliverResponse (c : Caller S)

namespace CallNet

/-- All services idle, and the client calls to make. -/
def init (targets : List S) : CallNet S := ⟨targets, 0, fun _ => none, fun _ => none⟩

variable [DecidableEq S]

/-- One step; `none` when the label is not enabled. -/
def step (w : CallNet S) : CallLabel S → Option (CallNet S)
  | .clientCall i =>
      match w.toCall[i]? with
      | some t => some { w with
          toCall := w.toCall.eraseIdx i
          called := w.called + 1
          calls := Function.update w.calls (.client w.called) (some ⟨t, .queued⟩) }
      | none => none
  | .call s t =>
      -- the method of `s` is running and not blocked in a call
      match w.handling s, w.calls (.service s) with
      | some _, none => some { w with
          calls := Function.update w.calls (.service s) (some ⟨t, .queued⟩) }
      | _, _ => none
  | .deliver c =>
      match w.calls c with
      | some ⟨t, .queued⟩ =>
          match w.handling t with
          | none => some { w with
              calls := Function.update w.calls c (some ⟨t, .handled⟩)
              handling := Function.update w.handling t (some c) }
          | some _ => none
      | _ => none
  | .finish s =>
      match w.handling s, w.calls (.service s) with
      | some c, none => some { w with
          calls := Function.update w.calls c (some ⟨s, .answered⟩)
          handling := Function.update w.handling s none }
      | _, _ => none
  | .deliverResponse c =>
      match w.calls c with
      | some ⟨_, .answered⟩ => some { w with calls := Function.update w.calls c none }
      | _ => none

/-- No step is enabled. -/
def Stuck (w : CallNet S) : Prop := ∀ l, w.step l = none

/-- A call is pending, and no step is enabled. -/
def Deadlocked (w : CallNet S) : Prop := (∃ c, w.calls c ≠ none) ∧ w.Stuck

omit [DecidableEq S] in
/-- The method that `s` runs is blocked in a call of `t` that `t` has not answered. -/
def Waits (w : CallNet S) (s t : S) : Prop :=
  ∃ stage, w.calls (.service s) = some ⟨t, stage⟩ ∧ stage ≠ .answered

/-- A service does not call itself, nor one that waits for it through any chain of calls. -/
def NoCycle (w : CallNet S) : CallLabel S → Prop
  | .call s t => ¬ ReflTransGen w.Waits t s
  | _ => True

-- ============================================================================
-- What holds of every run
-- ============================================================================

/-- A handler is busy with the calls that are with it, and a service with an open call is
    busy. -/
structure Inv (w : CallNet S) : Prop where
  handles : ∀ s c, w.handling s = some c ↔ w.calls c = some ⟨s, .handled⟩
  busy : ∀ s, w.calls (.service s) ≠ none → w.handling s ≠ none
  fresh : ∀ i, w.called ≤ i → w.calls (.client i) = none

section Steps

variable {w w' : CallNet S} {l : CallLabel S}

/-- The five things a step does. -/
theorem step_cases (h : w.step l = some w') :
    (∃ i t, l = .clientCall i ∧ w' = { w with
      toCall := w.toCall.eraseIdx i
      called := w.called + 1
      calls := Function.update w.calls (.client w.called) (some ⟨t, .queued⟩) }) ∨
    (∃ s t c, l = .call s t ∧ w.handling s = some c ∧ w.calls (.service s) = none ∧
      w' = { w with calls := Function.update w.calls (.service s) (some ⟨t, .queued⟩) }) ∨
    (∃ c t, l = .deliver c ∧ w.calls c = some ⟨t, .queued⟩ ∧ w.handling t = none ∧
      w' = { w with
        calls := Function.update w.calls c (some ⟨t, .handled⟩)
        handling := Function.update w.handling t (some c) }) ∨
    (∃ s c, l = .finish s ∧ w.handling s = some c ∧ w.calls (.service s) = none ∧
      w' = { w with
        calls := Function.update w.calls c (some ⟨s, .answered⟩)
        handling := Function.update w.handling s none }) ∨
    (∃ c t, l = .deliverResponse c ∧ w.calls c = some ⟨t, .answered⟩ ∧
      w' = { w with calls := Function.update w.calls c none }) := by
  cases l with
  | clientCall i =>
      simp only [step] at h
      split at h
      · exact Or.inl ⟨i, _, rfl, (Option.some.inj h).symm⟩
      · cases h
  | call s t =>
      simp only [step] at h
      split at h
      · exact Or.inr (Or.inl ⟨s, t, _, rfl, ‹_›, ‹_›, (Option.some.inj h).symm⟩)
      · cases h
  | deliver c =>
      simp only [step] at h
      split at h
      · split at h
        · exact Or.inr (Or.inr (Or.inl ⟨c, _, rfl, ‹_›, ‹_›, (Option.some.inj h).symm⟩))
        · cases h
      · cases h
  | finish s =>
      simp only [step] at h
      split at h
      · exact Or.inr (Or.inr (Or.inr (Or.inl ⟨s, _, rfl, ‹_›, ‹_›, (Option.some.inj h).symm⟩)))
      · cases h
  | deliverResponse c =>
      simp only [step] at h
      split at h
      · exact Or.inr (Or.inr (Or.inr (Or.inr ⟨c, _, rfl, ‹_›, (Option.some.inj h).symm⟩)))
      · cases h

/-- A call changes its stage while no handler is busy with it. -/
theorem Inv.handles_update (h : w.Inv) {c : Caller S} {v : Option (OpenCall S)}
    (hold : ∀ s, w.calls c ≠ some ⟨s, .handled⟩) (hnew : ∀ s, v ≠ some ⟨s, .handled⟩) (s : S)
    (c' : Caller S) :
    w.handling s = some c' ↔ Function.update w.calls c v c' = some ⟨s, .handled⟩ := by
  rw [h.handles]
  by_cases hc : c' = c
  · subst hc
    rw [Function.update_self]
    exact iff_of_false (hold s) (hnew s)
  · rw [Function.update_of_ne hc]

/-- A call that is open belongs to a client who has called or to a service. -/
theorem Inv.fresh_update (h : w.Inv) {c : Caller S} {v : Option (OpenCall S)}
    (hc : w.calls c ≠ none ∨ ∃ s, c = .service s) {i : Nat} (hi : w.called ≤ i) :
    Function.update w.calls c v (.client i) = none := by
  have hne : Caller.client i ≠ c := by
    rintro rfl
    rcases hc with hopen | ⟨s, hs⟩
    · exact hopen (h.fresh i hi)
    · cases hs
  rw [Function.update_of_ne hne]
  exact h.fresh i hi

/-- A service that is not busy has no open call, whatever becomes of the call of a client
    or of a busy service. -/
theorem Inv.busy_update (h : w.Inv) {c : Caller S} {v : Option (OpenCall S)}
    (hc : ∀ s, c = .service s → w.handling s ≠ none) {s : S}
    (hs : Function.update w.calls c v (.service s) ≠ none) : w.handling s ≠ none := by
  by_cases heq : c = .service s
  · exact hc s heq
  · have hne : Caller.service s ≠ c := fun h => heq h.symm
    rw [Function.update_of_ne hne] at hs
    exact h.busy s hs

omit [DecidableEq S] in
/-- The caller of an open call is busy, if it is a service. -/
theorem Inv.busy_of_open (h : w.Inv) {c : Caller S} {call : OpenCall S}
    (hc : w.calls c = some call) (s : S) (heq : c = .service s) : w.handling s ≠ none := by
  subst heq
  apply h.busy
  rw [hc]
  nofun

/-- The handler that takes a request is busy with it. -/
theorem Inv.deliver (h : w.Inv) {c : Caller S} {t : S} (hc : w.calls c = some ⟨t, .queued⟩)
    (ht : w.handling t = none) : Inv { w with
      calls := Function.update w.calls c (some ⟨t, .handled⟩)
      handling := Function.update w.handling t (some c) } := by
  have hopen : w.calls c ≠ none := by
    rw [hc]
    nofun
  refine ⟨fun s c' => ?_, fun s hs => ?_, fun j hj => h.fresh_update (Or.inl hopen) hj⟩
  · show Function.update w.handling t (some c) s = some c' ↔
      Function.update w.calls c (some ⟨t, .handled⟩) c' = some ⟨s, .handled⟩
    by_cases hst : s = t
    · subst hst
      rw [Function.update_self]
      by_cases hcc : c' = c
      · rw [hcc, Function.update_self]
        exact iff_of_true rfl rfl
      · rw [Function.update_of_ne hcc, ← h.handles, ht]
        exact iff_of_false (fun heq => hcc (Option.some.inj heq).symm) nofun
    · rw [Function.update_of_ne hst, h.handles]
      by_cases hcc : c' = c
      · rw [hcc, Function.update_self, hc]
        refine iff_of_false nofun fun heq => hst ?_
        exact (OpenCall.mk.inj (Option.some.inj heq)).1.symm
      · rw [Function.update_of_ne hcc]
  · show Function.update w.handling t (some c) s ≠ none
    by_cases hst : s = t
    · rw [hst, Function.update_self]
      nofun
    · rw [Function.update_of_ne hst]
      exact h.busy_update (h.busy_of_open hc) hs

/-- A service that has finished a method is idle, and it has no open call. -/
theorem Inv.finish (h : w.Inv) {s : S} {c : Caller S} (hs : w.handling s = some c)
    (hfree : w.calls (.service s) = none) : Inv { w with
      calls := Function.update w.calls c (some ⟨s, .answered⟩)
      handling := Function.update w.handling s none } := by
  have hcall := (h.handles s c).mp hs
  have hopen : w.calls c ≠ none := by
    rw [hcall]
    nofun
  have hne : c ≠ .service s := by
    intro heq
    exact hopen (heq ▸ hfree)
  refine ⟨fun s' c' => ?_, fun s' hs' => ?_, fun j hj => h.fresh_update (Or.inl hopen) hj⟩
  · show Function.update w.handling s none s' = some c' ↔
      Function.update w.calls c (some ⟨s, .answered⟩) c' = some ⟨s', .handled⟩
    by_cases hss : s' = s
    · subst hss
      rw [Function.update_self]
      refine iff_of_false nofun fun heq => ?_
      by_cases hcc : c' = c
      · rw [hcc, Function.update_self] at heq
        cases heq
      · rw [Function.update_of_ne hcc, ← h.handles, hs] at heq
        exact hcc (Option.some.inj heq).symm
    · rw [Function.update_of_ne hss, h.handles]
      by_cases hcc : c' = c
      · rw [hcc, Function.update_self, hcall]
        refine iff_of_false (fun heq => hss ?_) nofun
        exact (OpenCall.mk.inj (Option.some.inj heq)).1.symm
      · rw [Function.update_of_ne hcc]
  · show Function.update w.handling s none s' ≠ none
    have hs' : Function.update w.calls c (some ⟨s, .answered⟩) (.service s') ≠ none := hs'
    have hss : s' ≠ s := by
      rintro rfl
      rw [Function.update_of_ne hne.symm] at hs'
      exact hs' hfree
    rw [Function.update_of_ne hss]
    exact h.busy_update (h.busy_of_open hcall) hs'

theorem Inv.step (h : w.Inv) (hstep : w.step l = some w') : w'.Inv := by
  rcases step_cases hstep with ⟨i, t, -, rfl⟩ | ⟨s, t, c, -, hs, hfree, rfl⟩ |
    ⟨c, t, -, hc, ht, rfl⟩ | ⟨s, c, -, hs, hfree, rfl⟩ | ⟨c, t, -, hc, rfl⟩
  · refine ⟨h.handles_update (fun s hs => ?_) nofun,
      fun s hs => h.busy_update (c := .client w.called) (v := some ⟨t, .queued⟩) ?_ hs,
      fun j hj => ?_⟩
    · rw [h.fresh w.called (Nat.le_refl _)] at hs
      cases hs
    · rintro r ⟨⟩
    · have hj : w.called + 1 ≤ j := hj
      have hne : Caller.client j ≠ (.client w.called : Caller S) := by
        intro heq
        have := Caller.client.inj heq
        omega
      show Function.update w.calls _ _ (Caller.client j) = none
      rw [Function.update_of_ne hne]
      apply h.fresh
      omega
  · refine ⟨h.handles_update (fun s' hs' => ?_) nofun,
      fun s' hs' => h.busy_update (fun r hr => ?_) hs',
      fun j hj => h.fresh_update (v := some ⟨t, .queued⟩) (Or.inr ⟨s, rfl⟩) hj⟩
    · rw [hfree] at hs'
      cases hs'
    · cases hr
      rw [hs]
      nofun
  · exact h.deliver hc ht
  · exact h.finish hs hfree
  · refine ⟨h.handles_update (fun s hs => ?_) nofun,
      fun s hs => h.busy_update (h.busy_of_open hc) hs,
      fun j hj => h.fresh_update (Or.inl ?_) hj⟩
    · rw [hc] at hs
      cases hs
    · rw [hc]
      nofun

omit [DecidableEq S] in
theorem inv_init (targets : List S) : (init targets).Inv where
  handles _ _ := iff_of_false nofun nofun
  busy _ h := absurd rfl h
  fresh _ _ := rfl

-- ============================================================================
-- Waiting
-- ============================================================================

/-- Who waits after one call has changed waited before, or the changed call is his. -/
theorem waits_update {c : Caller S} {v : Option (OpenCall S)} {a b : S} {stage : CallStage}
    (hcall : Function.update w.calls c v (.service a) = some ⟨b, stage⟩)
    (hstage : stage ≠ .answered) :
    w.Waits a b ∨ c = .service a ∧ v = some ⟨b, stage⟩ := by
  by_cases ha : Caller.service a = c
  · rw [ha, Function.update_self] at hcall
    exact Or.inr ⟨ha.symm, hcall⟩
  · rw [Function.update_of_ne ha] at hcall
    exact Or.inl ⟨stage, hcall, hstage⟩

/-- Only a call makes a service wait. -/
theorem waits_step (hstep : w.step l = some w') {a b : S} (h : w'.Waits a b) :
    w.Waits a b ∨ l = .call a b := by
  obtain ⟨stage, hcall, hstage⟩ := h
  rcases step_cases hstep with ⟨i, t, -, rfl⟩ | ⟨s, t, c, rfl, -, -, rfl⟩ |
    ⟨c, t, -, hc, -, rfl⟩ | ⟨s, c, -, -, -, rfl⟩ | ⟨c, t, -, -, rfl⟩ <;>
    dsimp only at hcall <;> rcases waits_update hcall hstage with hold | ⟨hcaller, heq⟩
  · exact Or.inl hold
  · cases hcaller
  · exact Or.inl hold
  · cases hcaller
    cases heq
    exact Or.inr rfl
  · exact Or.inl hold
  · cases heq
    rw [hcaller] at hc
    exact Or.inl ⟨.queued, hc, nofun⟩
  · exact Or.inl hold
  · cases heq
    exact absurd rfl hstage
  · exact Or.inl hold
  · cases heq

/-- Who waits for a service that waits goes on waiting. -/
theorem Inv.waits_stays (h : w.Inv) (hstep : w.step l = some w') (a b : S) (hab : w.Waits a b)
    (hb : ∃ z, w.Waits b z) : w'.Waits a b := by
  obtain ⟨stage, hcall, hstage⟩ := hab
  rcases step_cases hstep with ⟨i, t, -, rfl⟩ | ⟨s, t, c, -, -, hfree, rfl⟩ |
    ⟨c, t, -, hc, -, rfl⟩ | ⟨s, c, -, hs, hfree, rfl⟩ | ⟨c, t, -, hc, rfl⟩
  · have ha : Caller.service a ≠ .client w.called := nofun
    refine ⟨stage, ?_, hstage⟩
    dsimp only
    rwa [Function.update_of_ne ha]
  · have ha : Caller.service a ≠ .service s := by
      rintro heq
      rw [heq, hfree] at hcall
      cases hcall
    exact ⟨stage, (Function.update_of_ne ha _ w.calls).trans hcall, hstage⟩
  · by_cases ha : Caller.service a = c
    · rw [ha, hc] at hcall
      cases hcall
      exact ⟨.handled, ha ▸ Function.update_self _ _ _, nofun⟩
    · exact ⟨stage, (Function.update_of_ne ha _ w.calls).trans hcall, hstage⟩
  · -- the service that finishes does not wait, so it is not `b`
    have ha : Caller.service a ≠ c := by
      rintro rfl
      rw [(h.handles s _).mp hs] at hcall
      cases hcall
      obtain ⟨z, stage', hz, -⟩ := hb
      rw [hfree] at hz
      cases hz
    exact ⟨stage, (Function.update_of_ne ha _ w.calls).trans hcall, hstage⟩
  · have ha : Caller.service a ≠ c := by
      rintro rfl
      rw [hc] at hcall
      cases hcall
      exact hstage rfl
    exact ⟨stage, (Function.update_of_ne ha _ w.calls).trans hcall, hstage⟩

theorem acyclic_step (h : Acyclic w.Waits) (hcycle : w.NoCycle l) (hstep : w.step l = some w') :
    Acyclic w'.Waits := by
  cases l with
  | call s t =>
      refine h.of_edge (fun a b hab => ?_) hcycle
      rcases waits_step hstep hab with hold | heq
      · exact Or.inl hold
      · cases heq
        exact Or.inr ⟨rfl, rfl⟩
  | _ => exact h.mono fun a b hab => (waits_step hstep hab).resolve_right nofun

/-- Nobody stops waiting because of a call. -/
theorem waits_of_call {s t : S} (hstep : w.step (.call s t) = some w') :
    w'.Waits s t ∧ ∀ a b, w.Waits a b → w'.Waits a b := by
  rcases step_cases hstep with ⟨_, _, hl, -⟩ | ⟨_, _, _, hl, -, hfree, rfl⟩ |
    ⟨_, _, hl, -⟩ | ⟨_, _, hl, -⟩ | ⟨_, _, hl, -⟩ <;> cases hl
  refine ⟨⟨.queued, Function.update_self _ _ _, nofun⟩, ?_⟩
  rintro a b ⟨stage, hcall, hstage⟩
  have ha : Caller.service a ≠ .service s := by
    intro heq
    rw [heq, hfree] at hcall
    cases hcall
  exact ⟨stage, (Function.update_of_ne ha _ w.calls).trans hcall, hstage⟩

/-- A call of one that waits for the caller closes a cycle. -/
theorem not_acyclic_of_call (hcycle : ¬ w.NoCycle l) (hstep : w.step l = some w') :
    ¬ Acyclic w'.Waits := by
  cases l with
  | call s t =>
      have hback : ReflTransGen w.Waits t s := not_not.mp hcycle
      obtain ⟨hedge, hkeep⟩ := waits_of_call hstep
      intro h
      exact h s (TransGen.head' hedge (ReflTransGen.mono hkeep t s hback))
  | _ => exact absurd trivial hcycle

end Steps

-- ============================================================================
-- No deadlock
-- ============================================================================

section Progress

variable {w : CallNet S}

/-- An idle handler takes a request that waits for it. -/
theorem deliver_enabled {c : Caller S} {t : S} (hc : w.calls c = some ⟨t, .queued⟩)
    (ht : w.handling t = none) : w.step (.deliver c) ≠ none := by
  simp [step, hc, ht]

/-- A method that is not blocked can finish. -/
theorem finish_enabled {s : S} {c : Caller S} (hs : w.handling s = some c)
    (hfree : w.calls (.service s) = none) : w.step (.finish s) ≠ none := by
  simp [step, hs, hfree]

theorem deliverResponse_enabled {c : Caller S} {t : S} (hc : w.calls c = some ⟨t, .answered⟩) :
    w.step (.deliverResponse c) ≠ none := by
  simp [step, hc]

/-- When nothing can happen, a busy service waits for another busy one. -/
theorem Inv.waits_of_stuck (h : w.Inv) (hstuck : w.Stuck) {c : Caller S}
    {call : OpenCall S} (hc : w.calls c = some call) :
    call.stage ≠ .answered ∧ ∃ t, w.Waits call.target t := by
  obtain ⟨target, stage⟩ := call
  have hstage : stage ≠ .answered := by
    rintro rfl
    exact deliverResponse_enabled hc (hstuck _)
  have hbusy : ∃ c', w.handling target = some c' := by
    cases stage with
    | queued =>
        apply Option.ne_none_iff_exists'.mp
        intro hidle
        exact deliver_enabled hc hidle (hstuck _)
    | handled => exact ⟨c, (h.handles target c).mpr hc⟩
    | answered => exact absurd rfl hstage
  obtain ⟨c', hhandling⟩ := hbusy
  cases hcall : w.calls (.service target) with
  | none => exact absurd (hstuck _) (finish_enabled hhandling hcall)
  | some next =>
      have hnext : next.stage ≠ .answered := by
        intro hanswered
        obtain ⟨t, stage'⟩ := next
        cases hanswered
        exact deliverResponse_enabled hcall (hstuck _)
      exact ⟨hstage, next.target, next.stage, hcall, hnext⟩

/-- Without a cycle something can happen while a call is open. -/
theorem Inv.not_deadlocked [Finite S] (h : w.Inv) (hacyclic : Acyclic w.Waits) :
    ¬ w.Deadlocked := by
  rintro ⟨⟨c, hc⟩, hstuck⟩
  obtain ⟨call, hcall⟩ := Option.ne_none_iff_exists'.mp hc
  have hchain : ∀ t, ReflTransGen w.Waits call.target t → ∃ z, w.Waits t z := by
    intro t ht
    induction ht with
    | refl => exact (h.waits_of_stuck hstuck hcall).2
    | tail _ hwaits _ =>
        obtain ⟨stage, hopen, -⟩ := hwaits
        exact (h.waits_of_stuck hstuck hopen).2
  -- the chain of waits would end at a service that waits
  obtain ⟨t, ht, hend⟩ := hacyclic.exists_end call.target
  obtain ⟨z, hz⟩ := hchain t ht
  exact hend z hz

omit [DecidableEq S] in
/-- In a cycle there is a call. -/
theorem exists_call_of_cycle (h : ¬ Acyclic w.Waits) : ∃ c, w.calls c ≠ none := by
  obtain ⟨s, hs⟩ := not_forall.mp h
  obtain ⟨t, ⟨stage, hcall, -⟩, -⟩ := TransGen.head'_iff.mp (not_not.mp hs)
  refine ⟨.service s, ?_⟩
  rw [hcall]
  nofun

end Progress

omit [DecidableEq S] in
theorem acyclic_init (targets : List S) : Acyclic (init targets).Waits := by
  intro s hs
  obtain ⟨t, ⟨stage, hcall, -⟩, -⟩ := TransGen.head'_iff.mp hs
  cases hcall

/-- As long as no service calls itself or one that waits for it, a run never deadlocks; and a
    run that ends where nothing can happen has deadlocked if ever one did. -/
theorem deadlock_free_iff [Finite S] (targets : List S) (ls : List (CallLabel S))
    (w : CallNet S) (hrun : Transition.run step (init targets) ls = some w) :
    (Transition.Along step NoCycle (init targets) ls →
      Transition.Always step (fun v => ¬ v.Deadlocked) (init targets) ls) ∧
    (w.Stuck →
      (Transition.Always step (fun v => ¬ v.Deadlocked) (init targets) ls ↔
        Transition.Along step NoCycle (init targets) ls)) := by
  have hsafe : Transition.Along step NoCycle (init targets) ls →
      Transition.Always step (fun v => ¬ v.Deadlocked) (init targets) ls := by
    apply Transition.always_of_along (I := fun v => v.Inv ∧ Acyclic v.Waits)
    · rintro s l t ⟨hinv, hacyclic⟩ hcycle hstep
      exact ⟨hinv.step hstep, acyclic_step hacyclic hcycle hstep⟩
    · rintro s ⟨hinv, hacyclic⟩
      exact hinv.not_deadlocked hacyclic
    · exact ⟨inv_init targets, acyclic_init targets⟩
  refine ⟨hsafe, fun hstuck => ⟨fun halways => ?_, hsafe⟩⟩
  have hlast : ¬ w.Deadlocked ↔ Transition.Along step NoCycle (init targets) ls := by
    apply Transition.last_iff_along (I := fun v => v.Inv ∧ Acyclic v.Waits)
      (B := fun v => v.Inv ∧ ¬ Acyclic v.Waits) (E := Stuck) (Q := fun v => ¬ v.Deadlocked)
    · rintro s l t ⟨hinv, hacyclic⟩ hcycle hstep
      exact ⟨hinv.step hstep, acyclic_step hacyclic hcycle hstep⟩
    · rintro s l t ⟨hinv, -⟩ hcycle hstep
      exact ⟨hinv.step hstep, not_acyclic_of_call hcycle hstep⟩
    · rintro s l t ⟨hinv, hacyclic⟩ hstep
      exact ⟨hinv.step hstep, cycle_stays (hinv.waits_stays hstep) hacyclic⟩
    · rintro s ⟨hinv, hacyclic⟩ -
      exact hinv.not_deadlocked hacyclic
    · rintro s ⟨-, hacyclic⟩ hend hfree
      exact hfree ⟨exists_call_of_cycle hacyclic, hend⟩
    · exact ⟨inv_init targets, acyclic_init targets⟩
    · exact hrun
    · exact hstuck
  exact hlast.mp (halways.last hrun)

section TwoServices

inductive TestServices where
  | users
  | orders
deriving DecidableEq

instance : Finite TestServices :=
  Finite.of_injective (fun s => decide (s = .users)) fun s t h => by
    cases s <;> cases t <;> first | rfl | cases h

/-- A client calls `users`, whose method calls `orders`. -/
def usersCallsOrders : List (CallLabel TestServices) :=
  [.clientCall 0, .deliver (.client 0), .call .users .orders, .deliver (.service .users)]

theorem deadlock_free_usersCallsOrders :
    Transition.Always step (fun v => ¬ v.Deadlocked) (init [TestServices.users])
      (usersCallsOrders ++ [.finish .orders, .deliverResponse (.service .users), .finish .users,
        .deliverResponse (.client 0)]) := by
  have hrun : Transition.run step (init [TestServices.users]) (usersCallsOrders ++
      [.finish .orders, .deliverResponse (.service .users), .finish .users,
        .deliverResponse (.client 0)]) = some _ := rfl
  apply (deadlock_free_iff _ _ _ hrun).1
  refine (Transition.along_cons rfl).mpr ⟨trivial, (Transition.along_cons rfl).mpr ⟨trivial,
    (Transition.along_cons rfl).mpr ⟨?_, (Transition.along_cons rfl).mpr ⟨trivial,
      (Transition.along_cons rfl).mpr ⟨trivial, (Transition.along_cons rfl).mpr ⟨trivial,
        (Transition.along_cons rfl).mpr ⟨trivial,
          (Transition.along_cons rfl).mpr ⟨trivial, trivial⟩⟩⟩⟩⟩⟩⟩⟩
  -- `orders` waits for nobody
  intro hchain
  rcases hchain.cases_head with heq | ⟨t, ⟨stage, hcall, -⟩, -⟩
  · cases heq
  · cases hcall

/-- The method of `orders` calls `users`, whose handler is busy: both wait for ever. -/
theorem deadlock_ordersCallsUsers : ∃ w,
    Transition.run step (init [TestServices.users])
      (usersCallsOrders ++ [.call .orders .users]) = some w ∧ w.Deadlocked := by
  refine ⟨_, rfl, ⟨.client 0, nofun⟩, fun l => ?_⟩
  cases l with
  | clientCall i => rfl
  | call s t => cases s <;> rfl
  | deliver c =>
      cases c with
      | client i => cases i <;> rfl
      | service s => cases s <;> rfl
  | finish s => cases s <;> rfl
  | deliverResponse c =>
      cases c with
      | client i => cases i <;> rfl
      | service s => cases s <;> rfl

end TwoServices

end CallNet

end Milde.Remoting
