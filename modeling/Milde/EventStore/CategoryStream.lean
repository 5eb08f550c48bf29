/-
  Milde.EventStore.CategoryStream

  The category stream `T` against the aggregate streams `T-{id}`.

  `SaveAggregate` writes `T` first, unconditionally, and `T-{id}` second, on condition
  of the expected version.  So `T` has every stored event, in order (`Mirror`), but a
  writer that loses the race for `T-{id}` has left its batch in `T` already.

  The proof counts.  The surplus of `T` over `T-{id}`, less what the running saves
  have written to `T` only, is changed by a step by exactly what the step strands in
  `T` (`surplus_step`); so the streams agree at the end of a run iff no step of the
  run has stranded anything.
-/
import Mathlib.Tactic.Tauto
import Milde.Common.Lists
import Milde.EventStore.Acceptance

namespace Milde.EventStore

open Milde.EventSourcing

variable {Id S P : Type} [DecidableEq Id]

-- ============================================================================
-- What a step strands in `T`
-- ============================================================================

/-- The store fails a call only by a wrong expected version. -/
def Label.Faultless : Label Id P → Prop
  | .complete _ fault _ => fault = .none
  | _ => True

/-- The call is not the refusal of a batch that `T` has already taken, nor an append of
    the event bus to a stream that is called `T`. -/
def Awaiting.Clean (T : String) (s : Store Id P) (id : Id) : Awaiting Id P → Prop
  | .aggregate events version =>
      events = [] ∨ version = ((s.aggregate id).length : Int) - 1
  | .bus eventType events _ => events = [] ∨ getStream eventType ≠ T
  | _ => True

/-- The events the call leaves in `T` without a counterpart in `T-{id}`. -/
def Awaiting.stranded (T : String) (s : Store Id P) (id : Id) :
    Awaiting Id P → List (AggregateEvent Id P)
  | .aggregate events version =>
      if version = ((s.aggregate id).length : Int) - 1 then [] else events
  | .bus eventType events _ => if getStream eventType = T then events else []
  | _ => []

/-- The store call that a step ends, with the object that awaits it. -/
def World.ended (w : World Id S P) : Label Id P → Option (Aggregate Id S P × Awaiting Id P)
  | .complete o _ _ =>
      match w.objects[o]? with
      | some ⟨a, some call, _⟩ => some (a, call)
      | _ => none
  | _ => none

/-- If the step ends a store call, the call is clean. -/
def Clean (T : String) (w : World Id S P) (l : Label Id P) : Prop :=
  ∀ p ∈ w.ended l, p.2.Clean T w.store p.1.id

instance (T : String) (s : Store Id P) (id : Id) [DecidableEq P] :
    ∀ call : Awaiting Id P, Decidable (call.Clean T s id)
  | .category _ => .isTrue trivial
  | .aggregate _ _ => inferInstanceAs (Decidable (_ ∨ _))
  | .ids => .isTrue trivial
  | .bus _ _ _ => inferInstanceAs (Decidable (_ ∨ _))

instance (T : String) (w : World Id S P) (l : Label Id P) [DecidableEq P] :
    Decidable (Clean T w l) :=
  inferInstanceAs (Decidable (∀ p ∈ w.ended l, p.2.Clean T w.store p.1.id))

def stranded (T : String) (w : World Id S P) (l : Label Id P) : List (AggregateEvent Id P) :=
  match w.ended l with
  | some (a, call) => call.stranded T w.store a.id
  | none => []

omit [DecidableEq Id] in
theorem Awaiting.clean_iff {T : String} {s : Store Id P} {id : Id} {call : Awaiting Id P} :
    call.Clean T s id ↔ call.stranded T s id = [] := by
  cases call with
  | aggregate events version =>
      simp only [Awaiting.Clean, Awaiting.stranded, ite_eq_left_iff]
      tauto
  | bus t events rest =>
      simp only [Awaiting.Clean, Awaiting.stranded, ite_eq_right_iff]
      tauto
  | category events => simp [Awaiting.Clean, Awaiting.stranded]
  | ids => simp [Awaiting.Clean, Awaiting.stranded]

omit [DecidableEq Id] in
theorem clean_iff {T : String} {w : World Id S P} {l : Label Id P} :
    Clean T w l ↔ stranded T w l = [] := by
  unfold Clean stranded
  cases w.ended l with
  | none => simp
  | some p => simp [Awaiting.clean_iff]

/-- The events of an aggregate that a running save has written to `T` only. -/
def pending (id : Id) (obj : Obj Id S P) : Int :=
  match obj.saving with
  | some (.aggregate events _) => (eventsOf id events).length
  | _ => 0

def World.inFlight (w : World Id S P) (id : Id) : Int := (w.objects.map (pending id)).sum

/-- How many events of `id` the stream `T` has beyond `T-{id}` and the running saves. -/
def surplus (T : String) (w : World Id S P) (id : Id) : Int :=
  (eventsOf id (w.store.typed T)).length - (w.store.aggregate id).length - w.inFlight id

-- ============================================================================
-- `T` has every stored event
-- ============================================================================

@[simp] theorem eventsOf_nil (id : Id) : eventsOf id ([] : List (AggregateEvent Id P)) = [] := rfl

@[simp] theorem eventsOf_append (id : Id) (l₁ l₂ : List (AggregateEvent Id P)) :
    eventsOf id (l₁ ++ l₂) = eventsOf id l₁ ++ eventsOf id l₂ :=
  List.filter_append l₁ l₂

theorem eventsOf_own {id : Id} {events : List (AggregateEvent Id P)}
    (h : ∀ e ∈ events, e.aggregateId = id) : eventsOf id events = events :=
  List.filter_eq_self.mpr fun e he => decide_eq_true (h e he)

theorem eventsOf_foreign {id id' : Id} {events : List (AggregateEvent Id P)}
    (h : ∀ e ∈ events, e.aggregateId = id) (hne : id' ≠ id) : eventsOf id' events = [] := by
  apply List.filter_eq_nil_iff.mpr
  intro e he
  rw [h e he, decide_eq_true_eq]
  exact hne.symm

/-- A batch written to `T` follows there what its writer had seen of `T-{id}`. -/
def Obj.Mirrored (T : String) (s : Store Id P) (obj : Obj Id S P) : Prop :=
  ∀ events version, obj.saving = some (.aggregate events version) →
    ∃ seen, version = (seen.length : Int) - 1 ∧ seen <+: s.aggregate obj.agg.id ∧
      List.Sublist (seen ++ events) (eventsOf obj.agg.id (s.typed T))

structure Mirror (T : String) (w : World Id S P) : Prop where
  streams : ∀ id, List.Sublist (w.store.aggregate id) (eventsOf id (w.store.typed T))
  objects : ∀ obj ∈ w.objects, obj.Mirrored T w.store

section Mirror

variable {d : TotalDomain Id S P} {T : String} {s s' : Store Id P} {obj : Obj Id S P}

theorem Obj.Mirrored.mono (h : obj.Mirrored T s) (hext : Extends s s') : obj.Mirrored T s' := by
  intro events version hsaving
  obtain ⟨seen, hversion, hseen, hsub⟩ := h events version hsaving
  refine ⟨seen, hversion, hseen.trans (hext.aggregate _), hsub.trans ?_⟩
  exact ((hext.typed T).filter _).sublist

theorem mirrored_of_ne {a : Aggregate Id S P} {saving : Option (Awaiting Id P)}
    {views : List (View S)} (h : ∀ events version, saving ≠ some (.aggregate events version)) :
    Obj.Mirrored T s ⟨a, saving, views⟩ :=
  fun events version hsaving => absurd hsaving (h events version)

omit [DecidableEq Id] in
theorem publishNext_ne_aggregate (a : Aggregate Id S P)
    (groups : List (ClrType × List (AggregateEvent Id P))) (events : List (AggregateEvent Id P))
    (version : Int) : (publishNext a groups).2 ≠ some (.aggregate events version) := by
  cases groups with
  | nil => simp [publishNext]
  | cons g rest => simp [publishNext]

/-- What the category stream has of an aggregate it keeps as it grows. -/
theorem Extends.eventsOf_sublist {id : Id} (hext : Extends s s')
    (h : List.Sublist (s.aggregate id) (eventsOf id (s.typed T)))
    (hagg : s'.aggregate id = s.aggregate id) :
    List.Sublist (s'.aggregate id) (eventsOf id (s'.typed T)) := by
  rw [hagg]
  exact h.trans ((hext.typed T).filter _).sublist

/-- A call that takes effect: `T` still has every stored event, and what the next call
    will store. -/
theorem Mirror.resume {a a' : Aggregate Id S P} {call : Awaiting Id P} {views : List (View S)}
    {sk : Int32} {loaded : List (AggregateEvent Id P)} {next : Option (Awaiting Id P)}
    {drop : Bool} (hstreams : ∀ id, List.Sublist (s.aggregate id) (eventsOf id (s.typed T)))
    (hm : Obj.Mirrored T s ⟨a, some call, views⟩)
    (ht : Tracks d s ⟨a, some call, views⟩ sk loaded) (hshort : Short T s)
    (hr : resume T drop s a call = some (s', a', next)) (views' : List (View S)) :
    (∀ id, List.Sublist (s'.aggregate id) (eventsOf id (s'.typed T))) ∧
      Obj.Mirrored T s' ⟨a', next, views'⟩ := by
  have hext := resume_extends hr
  cases call with
  | category events =>
      cases hr
      refine ⟨fun id => hext.eventsOf_sublist (hstreams id) rfl, ?_⟩
      obtain rfl : events = a.changes := ht.saving _ rfl
      intro events version hsaving
      cases hsaving
      refine ⟨loaded, ht.expects hshort, ht.seen, ?_⟩
      have hown : eventsOf a.id a.changes = a.changes :=
        eventsOf_own fun e he => ht.history.own e (List.mem_append_right loaded he)
      show List.Sublist (loaded ++ a.changes) (eventsOf a.id ((s.appendTyped T a.changes).typed T))
      rw [Store.appendTyped_typed_self, eventsOf_append, hown]
      exact (ht.seen.sublist.trans (hstreams a.id)).append_right a.changes
  | aggregate events version =>
      have hfits : events = a.changes ∧ version = expectedVersion a a.changes := ht.saving _ rfl
      obtain ⟨seen, hversion, hseen, hsub⟩ := hm events version rfl
      obtain ⟨stream, hsave, rfl, rfl, rfl⟩ := resume_aggregate hr
      obtain ⟨-, hloaded, rfl⟩ := ht.accepted hshort hsave
      refine ⟨fun id => ?_, mirrored_of_ne fun _ _ h => by cases h⟩
      by_cases hid : id = a.id
      · subst hid
        -- what the writer had seen is all of the stream
        have hseen : seen = loaded := by
          have hv := ht.expects hshort
          rw [← hfits.2, hversion] at hv
          rw [← hloaded]
          apply hseen.eq_of_length
          rw [hloaded]
          omega
        rw [Store.setAggregate_self, Store.setAggregate_typed, ← hseen, ← hfits.1]
        exact hsub
      · exact hext.eventsOf_sublist (hstreams id) (Store.setAggregate_ne s hid _)
  | ids =>
      obtain ⟨rfl, hnext⟩ := resume_ids hr
      refine ⟨fun id => hext.eventsOf_sublist (hstreams id) (by simp), mirrored_of_ne ?_⟩
      have hne := publishNext_ne_aggregate a (eventsByType a.getUncommitedChanges)
      rw [hnext] at hne
      exact hne
  | bus t events rest =>
      obtain ⟨rfl, hnext⟩ := resume_bus hr
      refine ⟨fun id => hext.eventsOf_sublist (hstreams id) rfl, mirrored_of_ne ?_⟩
      have hne := publishNext_ne_aggregate a rest
      rw [hnext] at hne
      exact hne

end Mirror

section Step

variable {d : TotalDomain Id S P} {T : String} {w w' : World Id S P}

/-- The store grows and one object changes. -/
theorem Mirror.setObject (h : Mirror T w) {s : Store Id P} {commits : List (Commit Id S P)}
    {o : Nat} {obj : Obj Id S P} (hext : Extends w.store s)
    (hstreams : ∀ id, List.Sublist (s.aggregate id) (eventsOf id (s.typed T)))
    (hobj : obj.Mirrored T s) :
    Mirror T { store := s, objects := w.objects.set o obj, commits } where
  streams := hstreams
  objects := by
    intro obj' hobj'
    rcases List.mem_or_eq_of_mem_set hobj' with hmem | rfl
    · exact (h.objects obj' hmem).mono hext
    · exact hobj

/-- A new object joins. -/
theorem Mirror.addObject (h : Mirror T w) (a : Aggregate Id S P) (views : List (View S)) :
    Mirror T (w.addObject a views) where
  streams := h.streams
  objects := by
    intro obj hobj
    rcases List.mem_append.mp hobj with hobj | hobj
    · exact h.objects obj hobj
    · rw [List.mem_singleton.mp hobj]
      exact mirrored_of_ne fun _ _ h => by cases h

theorem Mirror.step (h : Mirror T w) (hinv : Inv d w) (hshort : Short T w.store)
    {l : Label Id P} (hstep : step d.domain T w l = some w') : Mirror T w' := by
  have hidle : ∀ {a : Aggregate Id S P} {views : List (View S)},
      Obj.Mirrored T w.store ⟨a, none, views⟩ :=
    mirrored_of_ne fun _ _ h => by cases h
  rcases step_cases hstep with ⟨_, _, -, rfl⟩ | ⟨_, _, _, _, -, -, rfl⟩ |
    ⟨_, _, _, _, _, _, -, -, -, rfl⟩ | ⟨_, _, _, _, -, -, rfl⟩ |
    ⟨_, _, _, _, _, -, -, ⟨_, -, rfl⟩ | ⟨_, -, rfl⟩⟩ | ⟨_, _, _, -, -, rfl⟩ |
    ⟨o, fault, drop, a, call, views, -, ho, rfl⟩
  · exact h.addObject _ _
  · exact h.addObject _ _
  · exact h.addObject _ _
  · exact h.addObject _ _
  · exact h.setObject (Extends.refl _) h.streams hidle
  · exact h.setObject (Extends.refl _) h.streams hidle
  · exact h.setObject (Extends.refl _) h.streams (mirrored_of_ne fun _ _ h => by cases h)
  · obtain ⟨sk, loaded, ht⟩ := hinv.objects _ (List.mem_of_getElem? ho)
    have hm := h.objects _ (List.mem_of_getElem? ho)
    rcases completeCall_cases T w o _ call fault drop with ⟨heq, -⟩ |
      ⟨s, a', next, hr, ⟨-, heq⟩ | ⟨-, heq⟩⟩ <;> rw [heq]
    · exact h.setObject (Extends.refl _) h.streams hidle
    · obtain ⟨hstreams, -⟩ := Mirror.resume h.streams hm ht hshort hr []
      exact h.setObject (resume_extends hr) hstreams (mirrored_of_ne fun _ _ h => by cases h)
    · obtain ⟨hstreams, hnext⟩ := Mirror.resume h.streams hm ht hshort hr _
      exact h.setObject (resume_extends hr) hstreams hnext

theorem mirror_init : Mirror T (World.init : World Id S P) where
  streams _ := List.Sublist.refl _
  objects _ hobj := absurd hobj List.not_mem_nil

/-- **The category stream has every stored event**, in the order of its aggregate's
    stream, whatever fails in the store. -/
theorem mirror_run {d : Domain Id S P} {ls : List (Label Id P)}
    (haccepting : Transition.Along (EventStore.step d T) (Accepting d) w ls)
    (hshort : Transition.Along (EventStore.step d T) (fun w _ => Short T w.store) w ls)
    (hinv : Inv d.total w) (h : Mirror T w)
    (hrun : Transition.run (EventStore.step d T) w ls = some w') : Mirror T w' := by
  refine (Transition.run_invariant_along (I := fun w => Inv d.total w ∧ Mirror T w) ?_
    ⟨hinv, h⟩ (haccepting.and hshort) hrun).2
  rintro w l w' ⟨hinv, h⟩ ⟨haccepting, hshort⟩ hstep
  have htotal := step_total hinv hshort haccepting hstep
  exact ⟨hinv.step hshort htotal, h.step hinv hshort htotal⟩

end Step

-- ============================================================================
-- Counting
-- ============================================================================

section Count

variable {d : TotalDomain Id S P} {T : String} {w w' : World Id S P} {id : Id}

@[simp] theorem inFlight_addObject (w : World Id S P) (a : Aggregate Id S P)
    (views : List (View S)) : (w.addObject a views).inFlight id = w.inFlight id := by
  simp [World.inFlight, World.addObject, pending]

theorem inFlight_set {o : Nat} {obj : Obj Id S P} (ho : w.objects[o]? = some obj)
    (store : Store Id P) (obj' : Obj Id S P) (commits : List (Commit Id S P)) :
    World.inFlight { store, objects := w.objects.set o obj', commits } id =
      w.inFlight id - pending id obj + pending id obj' := by
  have hsum : World.inFlight ⟨store, w.objects.set o obj', commits⟩ id + pending id obj =
      w.inFlight id + pending id obj' := List.sum_map_set (pending id) obj' ho
  omega

theorem surplus_set {o : Nat} {obj : Obj Id S P} (ho : w.objects[o]? = some obj)
    (store : Store Id P) (obj' : Obj Id S P) (commits : List (Commit Id S P)) :
    surplus T { store, objects := w.objects.set o obj', commits } id =
      (eventsOf id (store.typed T)).length - (store.aggregate id).length -
        (w.inFlight id - pending id obj + pending id obj') := by
  rw [surplus, inFlight_set ho]

theorem pending_publishNext (a a' : Aggregate Id S P)
    (groups : List (ClrType × List (AggregateEvent Id P))) (views : List (View S)) :
    pending id ⟨a', (publishNext a groups).2, views⟩ = 0 := by
  cases groups <;> rfl

/-- A call that succeeds: `T` and `T-{id}` grow by what is no longer, or not yet, in
    flight, and by what the call strands. -/
theorem surplus_resume {s : Store Id P} {a a' : Aggregate Id S P} {call : Awaiting Id P}
    {views views' : List (View S)} {sk : Int32} {loaded : List (AggregateEvent Id P)}
    {next : Option (Awaiting Id P)} {drop : Bool}
    (ht : Tracks d w.store ⟨a, some call, views⟩ sk loaded) (hshort : Short T w.store)
    (hr : resume T drop w.store a call = some (s, a', next)) :
    ((eventsOf id (s.typed T)).length : Int) - (s.aggregate id).length -
        pending id ⟨a', next, views'⟩ =
      (eventsOf id (w.store.typed T)).length - (w.store.aggregate id).length -
        pending id ⟨a, some call, views⟩ +
        (eventsOf id (call.stranded T w.store a.id)).length := by
  cases call with
  | category events =>
      cases hr
      simp [pending, Awaiting.stranded]
      omega
  | aggregate events version =>
      have hfits : events = a.changes ∧ version = expectedVersion a a.changes := ht.saving _ rfl
      obtain ⟨stream, hsave, rfl, rfl, rfl⟩ := resume_aggregate hr
      obtain ⟨rfl, hloaded, rfl⟩ := ht.accepted hshort hsave
      have hlast : version = ((w.store.aggregate a.id).length : Int) - 1 := by
        rw [hfits.2, ht.expects hshort, hloaded]
      have hown : ∀ e ∈ a.changes, e.aggregateId = a.id :=
        fun e he => ht.history.own e (List.mem_append_right loaded he)
      by_cases hid : id = a.id
      · subst hid
        simp [pending, Awaiting.stranded, hlast, hloaded, eventsOf_own hown]
        omega
      · simp [pending, Awaiting.stranded, hlast, Store.setAggregate_ne _ hid,
          eventsOf_foreign hown hid]
  | ids =>
      obtain ⟨rfl, hnext⟩ := resume_ids hr
      have hp : pending id ⟨a', (publishNext a _).2, views'⟩ = 0 :=
        pending_publishNext a a' (eventsByType a.getUncommitedChanges) views'
      rw [hnext] at hp
      rw [hp]
      simp [pending, Awaiting.stranded]
  | bus t events rest =>
      obtain ⟨rfl, hnext⟩ := resume_bus hr
      have hp : pending id ⟨a', (publishNext a _).2, views'⟩ = 0 :=
        pending_publishNext a a' rest views'
      rw [hnext] at hp
      rw [hp]
      by_cases hname : getStream t = T
      · simp [pending, Awaiting.stranded, hname]
        omega
      · simp [pending, Awaiting.stranded, hname, Store.appendTyped_typed_ne _ (Ne.symm hname)]

/-- A refused append strands its batch, which `T` has taken. -/
theorem surplus_refused {a : Aggregate Id S P} {call : Awaiting Id P} {views : List (View S)}
    {drop : Bool} (hr : resume T drop w.store a call = none) :
    pending id ⟨a, some call, views⟩ =
      (eventsOf id (call.stranded T w.store a.id)).length := by
  cases call with
  | aggregate events version =>
      simp only [EventStore.resume, Option.map_eq_none_iff] at hr
      have hne : ¬ version = ((w.store.aggregate a.id).length : Int) - 1 := by
        unfold saveEvents at hr
        split at hr
        · cases hr
        · exact AppendLog.appendAt_eq_none.mp hr
      simp [pending, Awaiting.stranded, hne]
  | _ => cases hr

/-- **What a step changes.** The surplus of `T` grows by what the step strands there. -/
theorem surplus_step (hinv : Inv d w) (hshort : Short T w.store) {l : Label Id P}
    (hfault : l.Faultless) (hstep : step d.domain T w l = some w') :
    surplus T w' id = surplus T w id + (eventsOf id (stranded T w l)).length := by
  rcases step_cases hstep with ⟨_, _, rfl, rfl⟩ | ⟨_, _, _, _, rfl, -, rfl⟩ |
    ⟨_, _, _, _, _, _, rfl, -, -, rfl⟩ | ⟨_, _, _, _, rfl, -, rfl⟩ |
    ⟨o, _, _, _, _, rfl, ho, ⟨_, -, rfl⟩ | ⟨_, -, rfl⟩⟩ | ⟨o, _, _, rfl, ho, rfl⟩ |
    ⟨o, fault, drop, a, call, views, rfl, ho, rfl⟩
  · simp [surplus, stranded, World.ended, World.addObject_store]
  · simp [surplus, stranded, World.ended, World.addObject_store]
  · simp [surplus, stranded, World.ended, World.addObject_store]
  · simp [surplus, stranded, World.ended, World.addObject_store]
  · simp [surplus, stranded, World.ended, World.setObject, inFlight_set ho, pending]
  · simp [surplus, stranded, World.ended, World.setObject, inFlight_set ho, pending]
  · simp [surplus, stranded, World.ended, World.setObject, inFlight_set ho, pending, beginSave]
  · obtain ⟨sk, loaded, ht⟩ := hinv.objects _ (List.mem_of_getElem? ho)
    have hended : stranded T w (.complete o fault drop) = call.stranded T w.store a.id := by
      simp [stranded, World.ended, ho]
    rw [hended]
    obtain rfl : fault = .none := hfault
    rcases completeCall_cases T w o ⟨a, some call, views⟩ call .none drop with ⟨heq, hfail⟩ |
      ⟨s, a', next, hr, ⟨hafter, -⟩ | ⟨-, heq⟩⟩
    · have hp : pending id ⟨a, some call, views⟩ = _ :=
        surplus_refused (hfail.resolve_left (by simp))
      have hnone : pending id (⟨a, none, views⟩ : Obj Id S P) = 0 := rfl
      rw [heq, World.setObject, surplus_set ho, hnone, ← hp, surplus]
      omega
    · cases hafter
    · have hnext : ((eventsOf id (s.typed T)).length : Int) - (s.aggregate id).length -
          pending id ⟨a', next, if next.isNone then [] else views⟩ = _ :=
        surplus_resume ht hshort hr
      rw [heq, surplus_set ho, surplus]
      dsimp only
      omega

/-- Nothing is stranded iff nothing of any aggregate is. -/
theorem clean_iff_eventsOf {l : Label Id P} :
    Clean T w l ↔ ∀ id, (eventsOf id (stranded T w l)).length = 0 := by
  rw [clean_iff]
  refine ⟨?_, ?_⟩
  · intro h id
    rw [h]
    rfl
  · intro h
    apply List.eq_nil_iff_forall_not_mem.mpr
    intro e he
    have hmem : e ∈ eventsOf e.aggregateId (stranded T w l) :=
      List.mem_filter.mpr ⟨he, decide_eq_true rfl⟩
    rw [List.eq_nil_of_length_eq_zero (h e.aggregateId)] at hmem
    exact List.not_mem_nil hmem

/-- Along a run the surplus never shrinks, and it stays what it was iff every step is
    clean. -/
theorem surplus_run {d : Domain Id S P} {ls : List (Label Id P)} (hinv : Inv d.total w)
    (haccepting : Transition.Along (step d T) (Accepting d) w ls)
    (hshort : Transition.Along (step d T) (fun w _ => Short T w.store) w ls)
    (hfault : ∀ l ∈ ls, l.Faultless) (hrun : Transition.run (step d T) w ls = some w') :
    (∀ id, surplus T w id ≤ surplus T w' id) ∧
      ((∀ id, surplus T w' id = surplus T w id) ↔
        Transition.Along (step d T) (Clean T) w ls) := by
  induction ls generalizing w with
  | nil =>
      cases hrun
      exact ⟨fun _ => Int.le_refl _, by simp [Transition.Along]⟩
  | cons l ls ih =>
      obtain ⟨u, hu, hrun⟩ := Transition.run_cons_eq_some.mp hrun
      have htotal := step_total hinv hshort.1 haccepting.1 hu
      have hstep : ∀ id, surplus T u id = _ :=
        fun id => surplus_step hinv hshort.1 (hfault l List.mem_cons_self) htotal
      obtain ⟨hle, hiff⟩ := ih (hinv.step hshort.1 htotal) (haccepting.2 u hu) (hshort.2 u hu)
        (fun l' hl' => hfault l' (List.mem_cons_of_mem l hl')) hrun
      refine ⟨fun id => ?_, ?_⟩
      · have h₁ := hstep id
        have h₂ := hle id
        omega
      · rw [Transition.along_cons hu, ← hiff, clean_iff_eventsOf, ← forall_and]
        apply forall_congr'
        intro id
        have h₁ := hstep id
        have h₂ := hle id
        omega

theorem surplus_init (id : Id) : surplus T (World.init : World Id S P) id = 0 := rfl

/-- Where no save is in progress, the streams agree iff `T` has no surplus. -/
theorem eventsOf_eq_iff_surplus (hmirror : Mirror T w)
    (hquiet : ∀ obj ∈ w.objects, obj.saving = none) :
    eventsOf id (w.store.typed T) = w.store.aggregate id ↔ surplus T w id = 0 := by
  have hflight : w.inFlight id = 0 := by
    apply List.sum_eq_zero
    intro n hn
    obtain ⟨obj, hobj, rfl⟩ := List.mem_map.mp hn
    simp [pending, hquiet obj hobj]
  rw [surplus, hflight]
  refine ⟨?_, ?_⟩
  · intro heq
    rw [heq]
    omega
  · intro hzero
    exact ((hmirror.streams id).eq_of_length (by omega)).symm

/-- **The category stream tells the aggregates' histories iff nothing was stranded.**
    In a run whose steps are all clean it does, as long as the streams are in the range
    of `int`; in that range it does in no other run. -/
theorem category_stream_iff {d : Domain Id S P} {ls : List (Label Id P)}
    (hrun : Transition.run (step d T) World.init ls = some w)
    (haccepting : Transition.Along (step d T) (Accepting d) World.init ls)
    (hfault : ∀ l ∈ ls, l.Faultless) (hquiet : ∀ obj ∈ w.objects, obj.saving = none) :
    (Transition.Along (step d T) (fun w l => Clean T w l ∧ Short T w.store) World.init ls →
      ∀ id, eventsOf id (w.store.typed T) = w.store.aggregate id) ∧
    (Short T w.store → (∀ id, eventsOf id (w.store.typed T) = w.store.aggregate id) →
      Transition.Along (step d T) (Clean T) World.init ls) := by
  have hiff : Transition.Along (step d T) (fun w _ => Short T w.store) World.init ls →
      ((∀ id, eventsOf id (w.store.typed T) = w.store.aggregate id) ↔
        Transition.Along (step d T) (Clean T) World.init ls) := by
    intro hshort
    rw [← (surplus_run inv_init haccepting hshort hfault hrun).2]
    apply forall_congr'
    intro id
    rw [surplus_init]
    exact eventsOf_eq_iff_surplus (mirror_run haccepting hshort inv_init mirror_init hrun) hquiet
  refine ⟨?_, ?_⟩
  · intro halong
    exact (hiff (halong.mono fun _ _ h => h.2)).mpr (halong.mono fun _ _ h => h.1)
  · intro hshort
    exact (hiff (along_short hrun hshort)).mp

end Count

section Users

open Milde.UserManagement

/-- One writer creates a user and saves it. -/
def oneWriter : List (Label Nat UserEvent) :=
  let created := UserEvent.created (some "a") none 30
  [.construct 7 41, .raise 0 created.type created, .save 0] ++
    List.replicate 4 (.complete 0 .none false)

def oneWriterEnd : World Nat UserState UserEvent :=
  (Transition.run (step userDomain.domain "User") World.init oneWriter).getD World.init

theorem short_oneWriterEnd : Short "User" oneWriterEnd.store := by
  refine ⟨fun id => ?_, by decide⟩
  by_cases h : id = 7
  · subst h
    decide
  · show (Function.update (fun _ => []) 7 _ id).length < _
    rw [Function.update_of_ne h]
    decide

theorem category_stream_oneWriter :
    Transition.run (step userDomain.domain "User") World.init oneWriter = some oneWriterEnd ∧
      (oneWriterEnd.store.typed "User").length = 1 ∧
      ∀ id, eventsOf id (oneWriterEnd.store.typed "User") = oneWriterEnd.store.aggregate id := by
  have hrun : Transition.run (step userDomain.domain "User") World.init oneWriter =
      some oneWriterEnd := rfl
  have hclean : Transition.Along (step userDomain.domain "User") (Clean "User") World.init
      oneWriter := by decide
  have haccepting : Transition.Along (step userDomain.domain "User")
      (Accepting userDomain.domain) World.init oneWriter :=
    Transition.along_of_forall (accepting_of_total userDomain) _ _
  have hfault : ∀ l ∈ oneWriter, l.Faultless := by simp [oneWriter, Label.Faultless]
  exact ⟨hrun, rfl, (category_stream_iff hrun haccepting hfault (by decide)).1
    (hclean.and (along_short hrun short_oneWriterEnd))⟩

/-- Of two writers at the same version the one who comes second is refused, with its
    event in the category stream. -/
theorem category_stream_twoWriters :
    ∃ w, Transition.run (step userDomain.domain "User") World.init
        (twoWriters ++ List.replicate 2 (.complete 2 .none false)) = some w ∧
      (∀ l ∈ twoWriters ++ List.replicate 2 (.complete 2 .none false), l.Faultless) ∧
      (∀ obj ∈ w.objects, obj.saving = none) ∧
      (eventsOf 7 (w.store.typed "User")).map (fun e => e.version) = [1, 2, 2] ∧
      (w.store.aggregate 7).map (fun e => e.version) = [1, 2] ∧
      eventsOf 7 (w.store.typed "User") ≠ w.store.aggregate 7 := by
  refine ⟨_, rfl, by simp [twoWriters, Label.Faultless], by decide, rfl, rfl, by decide⟩

end Users

end Milde.EventStore
