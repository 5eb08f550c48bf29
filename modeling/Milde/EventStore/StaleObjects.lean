/-
  Milde.EventStore.StaleObjects

  Which of the objects that the processes hold can still write.

  `SaveAggregate` expects the stream to end with the last event that the object counts as
  stored, and nothing but an accepted batch of its own moves that point.  So an object whose
  stream has more events than it counts as stored is refused for ever
  (`never_stores_iff_stale`): the first of the objects that stores shuts out all the others
  (`first_committer_wins`), and an object that `UpdateAggregate` has brought up to date, which
  counts what it has applied as changes, is shut out from the start
  (`joined_never_stores_iff`).
-/
import Milde.EventStore.LostUpdate
import Milde.EventStore.SequentialSave

namespace Milde.EventStore

open Milde.EventSourcing

variable {Id S P : Type}

/-- The batch of the running save is in the stream already. -/
def Obj.appended (obj : Obj Id S P) : Bool :=
  match obj.saving with
  | some .ids => true
  | some (.bus _ _ _) => true
  | _ => false

/-- The number of the last event of its stream that the object counts as stored: before its
    batch is stored the version that its save expects, afterwards its own. -/
def Obj.lastCounted (obj : Obj Id S P) : Int :=
  if obj.appended then obj.agg.version.toInt - 1
  else expectedVersion obj.agg obj.agg.getUncommitedChanges

/-- The stream has more events than the object counts as stored. -/
def Stale (s : Store Id P) (obj : Obj Id S P) : Prop :=
  obj.lastCounted + 1 < (s.aggregate obj.agg.id).length

instance (s : Store Id P) (obj : Obj Id S P) : Decidable (Stale s obj) :=
  inferInstanceAs (Decidable (_ < _))

/-- The step is none by which the object at `o` stores something in a stream `T-{id}`. -/
def NeverStores [DecidableEq Id] (d : Domain Id S P) (T : String) (o : Nat) (w : World Id S P)
    (l : Label Id P) : Prop :=
  ∀ fault drop w', l = .complete o fault drop → step d T w l = some w' →
    w'.store.aggregate = w.store.aggregate

/-- Of an object that joins: its aggregate, and how many events it counts as stored. -/
def Label.joins : Label Id P → Option (Id × Nat)
  | .construct id _ => some (id, 0)
  | .deserialize id length _ => some (id, length)
  | .rehydrate id length upTo _ => some (id, min length upTo)
  | .replay id _ _ => some (id, 0)
  | _ => none

-- ============================================================================
-- What an object counts as stored
-- ============================================================================

section Counted

variable {d : TotalDomain Id S P} {T : String} {s : Store Id P} {obj : Obj Id S P} {sk : Int32}
  {loaded : List (AggregateEvent Id P)}

/-- Before its batch is stored, an object counts what it was loaded from. -/
theorem Tracks.lastCounted_of_not_appended (h : Tracks d s obj sk loaded) (hshort : Short T s)
    (happended : obj.appended = false) : obj.lastCounted = (loaded.length : Int) - 1 := by
  rw [Obj.lastCounted, happended, if_neg Bool.false_ne_true]
  exact h.expects hshort

/-- Once it is stored, an object counts its changes too. -/
theorem Tracks.lastCounted_of_appended (h : Tracks d s obj sk loaded) (hshort : Short T s)
    (happended : obj.appended = true) :
    obj.lastCounted = ((loaded ++ obj.agg.changes).length : Int) - 1 ∧
      loaded ++ obj.agg.changes <+: s.aggregate obj.agg.id := by
  have hstored : loaded ++ obj.agg.changes <+: s.aggregate obj.agg.id := by
    unfold Obj.appended at happended
    split at happended
    · rename_i hsaving
      exact h.saving _ hsaving
    · rename_i hsaving
      exact h.saving _ hsaving
    · cases happended
  have hlen := Nat.lt_of_le_of_lt hstored.length_le (hshort.aggregate obj.agg.id)
  have hversion : obj.agg.version = Int32.ofNat (loaded.length + obj.agg.changes.length) := by
    rw [h.object, built_version, built_changes]
  rw [List.length_append] at hlen ⊢
  rw [Obj.lastCounted, happended, if_pos rfl, hversion, Int32.toInt_ofNat_of_lt (by omega)]
  exact ⟨rfl, hstored⟩

/-- What an object counts is a beginning of its stream, and holds what it was loaded from. -/
theorem Tracks.lastCounted_bounds (h : Tracks d s obj sk loaded) (hshort : Short T s) :
    (loaded.length : Int) - 1 ≤ obj.lastCounted ∧
      obj.lastCounted + 1 ≤ (s.aggregate obj.agg.id).length := by
  cases happended : obj.appended with
  | false =>
      have hcounted := h.lastCounted_of_not_appended hshort happended
      have hlen := h.seen.length_le
      omega
  | true =>
      obtain ⟨hcounted, hstored⟩ := h.lastCounted_of_appended hshort happended
      have hlen := hstored.length_le
      rw [List.length_append] at hcounted hlen
      omega

theorem Stale.mono {s' : Store Id P} {obj' : Obj Id S P} (h : Stale s obj)
    (hext : Extends s s') (hid : obj'.agg.id = obj.agg.id)
    (hcounted : obj'.lastCounted ≤ obj.lastCounted) :
    Stale s' obj' := by
  have hlen := (hext.aggregate obj.agg.id).length_le
  have h : obj.lastCounted + 1 < (s.aggregate obj.agg.id).length := h
  show obj'.lastCounted + 1 < (s'.aggregate obj'.agg.id).length
  rw [hid]
  omega

end Counted

-- ============================================================================
-- One step
-- ============================================================================

section Step

variable [DecidableEq Id] {d : TotalDomain Id S P} {T : String} {w w' : World Id S P} {o : Nat}
  {obj : Obj Id S P}

omit [DecidableEq Id] in
/-- With the batch stored, the end of the save does not change what the object counts. -/
theorem Tracks.lastCounted_publishNext {s : Store Id P} {sk : Int32}
    {loaded : List (AggregateEvent Id P)} (h : Tracks d s obj sk loaded) (hshort : Short T s)
    (happended : obj.appended = true) (groups : List (ClrType × List (AggregateEvent Id P)))
    (views : List (View S)) :
    (EventStore.publishNext obj.agg groups).1.id = obj.agg.id ∧
      (⟨(EventStore.publishNext obj.agg groups).1, (EventStore.publishNext obj.agg groups).2,
        views⟩ : Obj Id S P).lastCounted = obj.lastCounted := by
  have hversion : obj.lastCounted = obj.agg.version.toInt - 1 := by
    rw [Obj.lastCounted, happended, if_pos rfl]
  cases groups with
  | nil =>
      have hcounted := (h.lastCounted_of_appended hshort happended).1
      have hnonneg : (0 : Int) ≤ obj.agg.version.toInt := by omega
      have hmarked : expectedVersion obj.agg.markAsCommited [] = obj.agg.version.toInt - 0 - 1 :=
        expectedVersion_eq hnonneg
      refine ⟨rfl, ?_⟩
      rw [hversion]
      show expectedVersion obj.agg.markAsCommited [] = _
      omega
  | cons g rest => exact ⟨rfl, hversion.symm⟩

/-- A call of a stale object does not store its batch, and the object sees no more than
    before. -/
theorem Stale.resume {s s' : Store Id P} {a a' : Aggregate Id S P} {call : Awaiting Id P}
    {next : Option (Awaiting Id P)} {views : List (View S)} {sk : Int32}
    {loaded : List (AggregateEvent Id P)} {drop : Bool}
    (h : Stale s (⟨a, some call, views⟩ : Obj Id S P))
    (ht : Tracks d s ⟨a, some call, views⟩ sk loaded) (hshort : Short T s)
    (hr : EventStore.resume T drop s a call = some (s', a', next)) (views' : List (View S)) :
    s'.aggregate = s.aggregate ∧ a'.id = a.id ∧
      (⟨a', next, views'⟩ : Obj Id S P).lastCounted =
        (⟨a, some call, views⟩ : Obj Id S P).lastCounted := by
  have hpublish : ∀ groups, (⟨a, some call, views⟩ : Obj Id S P).appended = true →
      publishNext a groups = (a', next) → a'.id = a.id ∧
        (⟨a', next, views'⟩ : Obj Id S P).lastCounted =
          (⟨a, some call, views⟩ : Obj Id S P).lastCounted := by
    intro groups happended hnext
    have hcounted := ht.lastCounted_publishNext hshort happended groups views'
    rw [show publishNext (⟨a, some call, views⟩ : Obj Id S P).agg groups = (a', next) from hnext]
      at hcounted
    exact hcounted
  cases call with
  | category events =>
      cases hr
      exact ⟨rfl, rfl, rfl⟩
  | aggregate events version =>
      -- an accepted object counts the whole stream
      obtain ⟨stream, hsave, -⟩ := resume_aggregate hr
      obtain ⟨-, hloaded, -⟩ := ht.accepted hshort hsave
      have hcounted := ht.lastCounted_of_not_appended hshort rfl
      have h : (⟨a, some (.aggregate events version), views⟩ : Obj Id S P).lastCounted + 1 <
        (s.aggregate a.id).length := h
      rw [hcounted, hloaded] at h
      omega
  | ids =>
      obtain ⟨rfl, hnext⟩ := resume_ids hr
      exact ⟨Store.appendId_aggregate .., hpublish _ rfl hnext⟩
  | bus t events rest =>
      obtain ⟨rfl, hnext⟩ := resume_bus hr
      exact ⟨rfl, hpublish _ rfl hnext⟩

/-- What a step does to one object: nothing, or it is the object's own step. -/
theorem step_object {d : Domain Id S P} {l : Label Id P} (ho : w.objects[o]? = some obj)
    (hstep : step d T w l = some w') :
    (w'.objects[o]? = some obj ∧ ∀ fault drop, l ≠ .complete o fault drop) ∨
    (∃ t p a views, l = .raise o t p ∧ obj = ⟨a, none, views⟩ ∧
      ((∃ a', a.applyEvent d (a.nextEvent t p) = .returned a' ∧
          w'.objects[o]? = some ⟨a', none, views ++ [a.view]⟩) ∨
        (∃ a', a.applyEvent d (a.nextEvent t p) = .threw a' ∧
          w'.objects[o]? = some ⟨a', none, views⟩))) ∨
    (∃ a views, l = .save o ∧ obj = ⟨a, none, views⟩ ∧
      w'.objects[o]? = some ⟨a, some (beginSave a), views⟩) ∨
    (∃ fault drop a call views, l = .complete o fault drop ∧ obj = ⟨a, some call, views⟩ ∧
      w' = w.completeCall T o obj call fault drop) := by
  have hlt := (List.getElem?_eq_some_iff.mp ho).1
  have hjoin : ∀ a views, (w.addObject a views).objects[o]? = some obj := by
    intro a views
    rw [World.addObject, List.getElem?_append_left hlt]
    exact ho
  have hself : ∀ obj', (w.setObject o obj').objects[o]? = some obj' := fun obj' =>
    List.getElem?_set_self hlt
  have hother : ∀ o' obj', o' ≠ o → (w.setObject o' obj').objects[o]? = some obj := by
    intro o' obj' hne
    rw [World.setObject, List.getElem?_set_ne hne]
    exact ho
  rcases step_cases hstep with ⟨_, _, rfl, rfl⟩ | ⟨_, _, _, _, rfl, -, rfl⟩ |
    ⟨_, _, _, _, _, _, rfl, -, -, rfl⟩ | ⟨_, _, _, _, rfl, -, rfl⟩ |
    ⟨o', t, p, a, views, rfl, ho', hraise⟩ | ⟨o', a, views, rfl, ho', rfl⟩ |
    ⟨o', fault, drop, a, call, views, rfl, ho', rfl⟩
  · exact Or.inl ⟨hjoin _ _, fun _ _ h => (by cases h)⟩
  · exact Or.inl ⟨hjoin _ _, fun _ _ h => (by cases h)⟩
  · exact Or.inl ⟨hjoin _ _, fun _ _ h => (by cases h)⟩
  · exact Or.inl ⟨hjoin _ _, fun _ _ h => (by cases h)⟩
  · by_cases heq : o' = o
    · subst heq
      refine Or.inr (Or.inl ⟨t, p, a, views, rfl, Option.some.inj (ho.symm.trans ho'), ?_⟩)
      rcases hraise with ⟨a', happly, rfl⟩ | ⟨a', happly, rfl⟩
      · exact Or.inl ⟨a', happly, hself _⟩
      · exact Or.inr ⟨a', happly, hself _⟩
    · rcases hraise with ⟨a', -, rfl⟩ | ⟨a', -, rfl⟩
      · exact Or.inl ⟨hother o' _ heq, fun _ _ h => (by cases h)⟩
      · exact Or.inl ⟨hother o' _ heq, fun _ _ h => (by cases h)⟩
  · by_cases heq : o' = o
    · subst heq
      exact Or.inr (Or.inr (Or.inl
        ⟨a, views, rfl, Option.some.inj (ho.symm.trans ho'), hself _⟩))
    · exact Or.inl ⟨hother o' _ heq, fun _ _ h => (by cases h)⟩
  · by_cases heq : o' = o
    · subst heq
      obtain rfl := Option.some.inj (ho.symm.trans ho')
      exact Or.inr (Or.inr (Or.inr ⟨fault, drop, a, call, views, rfl, rfl, rfl⟩))
    · refine Or.inl ⟨?_, fun fault' drop' hl => heq (by cases hl; rfl)⟩
      rcases completeCall_cases T w o' ⟨a, some call, views⟩ call fault drop with
        ⟨hw, -⟩ | ⟨s, a', next, -, ⟨-, hw⟩ | ⟨-, hw⟩⟩ <;> rw [hw]
      · exact hother o' _ heq
      · rw [List.getElem?_set_ne heq]
        exact ho
      · rw [List.getElem?_set_ne heq]
        exact ho

/-- A stale object stays stale, and a step of it stores nothing. -/
theorem Stale.step (hinv : Inv d w) (hshort : Short T w.store) {l : Label Id P}
    (ho : w.objects[o]? = some obj) (h : Stale w.store obj)
    (hstep : step d.domain T w l = some w') :
    NeverStores d.domain T o w l ∧
      ∃ obj', w'.objects[o]? = some obj' ∧ Stale w'.store obj' := by
  obtain ⟨sk, loaded, ht⟩ := hinv.objects _ (List.mem_of_getElem? ho)
  have hext := step_extends hstep
  rcases step_object ho hstep with ⟨ho', hnot⟩ | ⟨t, p, a, views, rfl, rfl, hraise⟩ |
    ⟨a, views, rfl, rfl, ho'⟩ | ⟨fault, drop, a, call, views, rfl, rfl, hw⟩
  · exact ⟨fun fault drop _ hl => absurd hl (hnot fault drop),
      obj, ho', h.mono hext rfl (Int.le_refl _)⟩
  · refine ⟨fun _ _ _ hl => (by cases hl), ?_⟩
    obtain ⟨a', happly, ht'⟩ := ht.raise t p
    rcases hraise with ⟨b, hb, ho'⟩ | ⟨b, hb, ho'⟩
    · obtain rfl : a' = b := Outcome.returned.inj (happly.symm.trans hb)
      have hid : a'.id = a.id := (Aggregate.applyEvent_eq_returned rfl happly).2.2.1
      refine ⟨_, ho', h.mono hext hid ?_⟩
      rw [ht.lastCounted_of_not_appended hshort rfl, ht'.lastCounted_of_not_appended hshort rfl]
    · rw [happly] at hb
      cases hb
  · exact ⟨fun _ _ _ hl => (by cases hl), _, ho', h.mono hext rfl (Int.le_refl _)⟩
  · have hlt := (List.getElem?_eq_some_iff.mp ho).1
    have hself : ∀ obj', (w.objects.set o obj')[o]? = some obj' := fun obj' =>
      List.getElem?_set_self hlt
    -- after a failure the object is idle, and counts what it was loaded from
    have hidle : (⟨a, none, views⟩ : Obj Id S P).lastCounted ≤
        (⟨a, some call, views⟩ : Obj Id S P).lastCounted := by
      have ht' : Tracks d w.store ⟨a, none, views⟩ sk loaded := ht.idle
      rw [ht'.lastCounted_of_not_appended hshort rfl]
      exact (ht.lastCounted_bounds hshort).1
    have hstores : ∀ fault' drop' w'', (.complete o fault drop : Label Id P) =
        .complete o fault' drop' → EventStore.step d.domain T w (.complete o fault drop) =
          some w'' → w'' = w' := fun _ _ w'' _ hstep' =>
      Option.some.inj (hstep'.symm.trans hstep)
    rcases completeCall_cases T w o ⟨a, some call, views⟩ call fault drop with
      ⟨heq, -⟩ | ⟨s, a', next, hr, ⟨-, heq⟩ | ⟨-, heq⟩⟩ <;> rw [heq] at hw <;> subst hw
    · refine ⟨fun _ _ w'' hl hstep' => ?_, _, hself _, h.mono hext rfl hidle⟩
      rw [hstores _ _ w'' hl hstep']
      rfl
    · obtain ⟨hagg, -, -⟩ := h.resume ht hshort hr views
      refine ⟨fun _ _ w'' hl hstep' => ?_, _, hself _, h.mono hext rfl hidle⟩
      rw [hstores _ _ w'' hl hstep']
      exact hagg
    · obtain ⟨hagg, hid, hcounted⟩ := h.resume ht hshort hr
        (if next.isNone then [] else views)
      refine ⟨fun _ _ w'' hl hstep' => ?_, _, hself _, h.mono hext hid (Int.le_of_eq hcounted)⟩
      rw [hstores _ _ w'' hl hstep']
      exact hagg

end Step

-- ============================================================================
-- Runs
-- ============================================================================

section Runs

variable [DecidableEq Id] {d : TotalDomain Id S P} {T : String} {w w' : World Id S P} {o : Nat}
  {obj : Obj Id S P}

/-- A stale object stores nothing in any run. -/
theorem Stale.never_stores (hinv : Inv d w) {ls : List (Label Id P)}
    (ho : w.objects[o]? = some obj) (h : Stale w.store obj)
    (hrun : Transition.run (EventStore.step d.domain T) w ls = some w')
    (hshort : Short T w'.store) :
    Transition.Along (EventStore.step d.domain T) (NeverStores d.domain T o) w ls := by
  induction ls generalizing w obj with
  | nil => trivial
  | cons l ls ih =>
      obtain ⟨u, hu, hrun'⟩ := Transition.run_cons_eq_some.mp hrun
      have hshort_w : Short T w.store := hshort.of_extends (run_extends hrun)
      obtain ⟨hnever, obj', ho', h'⟩ := h.step hinv hshort_w ho hu
      exact (Transition.along_cons hu).mpr ⟨hnever, ih (hinv.step hshort_w hu) ho' h' hrun'⟩

/-- A call that succeeds. -/
theorem step_completes {d : Domain Id S P} {a a' : Aggregate Id S P} {call : Awaiting Id P}
    {views : List (View S)} {s : Store Id P} {next : Option (Awaiting Id P)}
    (ho : w.objects[o]? = some ⟨a, some call, views⟩)
    (hr : resume T false w.store a call = some (s, a', next)) :
    ∃ w' views', EventStore.step d T w (.complete o .none false) = some w' ∧ w'.store = s ∧
      w'.objects[o]? = some ⟨a', next, views'⟩ := by
  have hcomplete := step_complete (d := d) (T := T) ho .none false
  simp only [World.completeCall, hr] at hcomplete
  exact ⟨_, _, hcomplete, rfl, List.getElem?_set_self (List.getElem?_eq_some_iff.mp ho).1⟩

/-- One more event and all that the object has not saved fit the range of `int`. -/
structure HasRoom (T : String) (s : Store Id P) (a : Aggregate Id S P) : Prop where
  short : Short T s
  aggregate : (s.aggregate a.id).length + a.changes.length + 1 < 2 ^ 31 - 1
  category : (s.typed T).length + a.changes.length + 1 < 2 ^ 31 - 1

/-- An idle object that counts all of its stream can store: a command and the first two
    calls of its save. -/
theorem stores_of_not_stale (hinv : Inv d w) {a : Aggregate Id S P} {views : List (View S)}
    (ho : w.objects[o]? = some ⟨a, none, views⟩) (hroom : HasRoom T w.store a)
    (h : ¬ Stale w.store (⟨a, none, views⟩ : Obj Id S P)) (t : ClrType) (p : P) :
    ∃ ls w', Transition.run (EventStore.step d.domain T) w ls = some w' ∧ Short T w'.store ∧
      ¬ Transition.Along (EventStore.step d.domain T) (NeverStores d.domain T o) w ls := by
  obtain ⟨sk, loaded, ht⟩ := hinv.objects _ (List.mem_of_getElem? ho)
  have hlt := (List.getElem?_eq_some_iff.mp ho).1
  obtain ⟨a', happly, ht'⟩ := ht.raise t p
  obtain ⟨-, -, hid, -, hchanges⟩ := Aggregate.applyEvent_eq_returned rfl happly
  have hlen := congrArg List.length hchanges
  rw [List.length_append, List.length_singleton] at hlen
  have hloaded : loaded = w.store.aggregate a.id := by
    have hcounted := ht.lastCounted_of_not_appended hroom.short rfl
    have h : ¬ (⟨a, none, views⟩ : Obj Id S P).lastCounted + 1 <
        (w.store.aggregate a.id).length := h
    have hle : (w.store.aggregate a.id).length ≤ loaded.length := by omega
    exact ht.seen.eq_of_length_le hle
  have hobj : a' = built d a'.id sk loaded a'.changes := ht'.object
  have haccept : saveEvents (w.store.aggregate a'.id) a'.changes
      (expectedVersion a' a'.changes) = some (loaded ++ a'.changes) := by
    have hself : saveEvents loaded a'.changes
        (expectedVersion (built d a'.id sk loaded a'.changes) a'.changes) =
          some (loaded ++ a'.changes) := saveEvents_built_self d a'.id sk (by
      have := hroom.aggregate
      rw [← hloaded] at this
      omega)
    rw [hid, ← hloaded]
    rw [← hobj] at hself
    exact hself
  -- the command, the start of the save, the append to `T`, and the append to `T-{id}`
  have hraise : EventStore.step d.domain T w (.raise o t p) =
      some (w.setObject o ⟨a', none, views ++ [a.view]⟩) := by
    simp only [EventStore.step, ho, happly]
  have hsave : EventStore.step d.domain T (w.setObject o ⟨a', none, views ++ [a.view]⟩)
      (.save o) = some ((w.setObject o ⟨a', none, views ++ [a.view]⟩).setObject o
        ⟨a', some (beginSave a'), views ++ [a.view]⟩) := by
    have ho₁ : (w.setObject o ⟨a', none, views ++ [a.view]⟩).objects[o]? =
        some ⟨a', none, views ++ [a.view]⟩ := List.getElem?_set_self hlt
    simp only [EventStore.step, ho₁]
  obtain ⟨w₃, views₃, hcategory, hstore₃, ho₃⟩ := step_completes (T := T) (d := d.domain)
    (w := (w.setObject o ⟨a', none, views ++ [a.view]⟩).setObject o
      ⟨a', some (beginSave a'), views ++ [a.view]⟩)
    (List.getElem?_set_self (by rw [World.setObject, List.length_set]; exact hlt)) rfl
  have hagg₃ : w₃.store.aggregate = w.store.aggregate := by
    rw [hstore₃]
    rfl
  have hresume : resume T false w₃.store a'
      (.aggregate a'.changes (expectedVersion a' a'.changes)) =
        some (w₃.store.setAggregate a'.id (loaded ++ a'.changes), a', some .ids) := by
    simp only [resume, hagg₃]
    rw [haccept]
    rfl
  obtain ⟨w₄, views₄, haggregate, hstore₄, -⟩ :=
    step_completes (T := T) (d := d.domain) ho₃ hresume
  refine ⟨[.raise o t p, .save o, .complete o .none false, .complete o .none false], w₄, ?_, ?_,
    fun halong => ?_⟩
  · exact Transition.run_cons_eq_some.mpr ⟨_, hraise, Transition.run_cons_eq_some.mpr ⟨_, hsave,
      Transition.run_cons_eq_some.mpr ⟨_, hcategory, Transition.run_single haggregate⟩⟩⟩
  · have hcategory₃ : w₃.store.typed T = w.store.typed T ++ a'.changes := by
      rw [hstore₃]
      exact Store.appendTyped_typed_self ..
    refine ⟨fun id => ?_, ?_⟩
    · rw [hstore₄]
      by_cases heq : id = a'.id
      · subst heq
        have := hroom.aggregate
        rw [Store.setAggregate_self, List.length_append, hlen, hloaded]
        omega
      · rw [Store.setAggregate_ne _ heq, hagg₃]
        exact hroom.short.aggregate id
    · have := hroom.category
      rw [hstore₄, Store.setAggregate_typed, hcategory₃, List.length_append, hlen]
      omega
  · have hlast := ((Transition.along_cons hcategory).mp ((Transition.along_cons hsave).mp
      ((Transition.along_cons hraise).mp halong).2).2).2.1
    have hsame := congrFun (hlast .none false w₄ rfl haggregate) a'.id
    rw [hstore₄, Store.setAggregate_self, hagg₃, hid, ← hloaded] at hsame
    have := congrArg List.length hsame
    rw [List.length_append] at this
    omega

/-- Only the second call of a save changes an aggregate stream. -/
theorem resume_stored {s s' : Store Id P} {a a' : Aggregate Id S P} {call : Awaiting Id P}
    {next : Option (Awaiting Id P)} {drop : Bool}
    (hr : resume T drop s a call = some (s', a', next)) (hstored : s'.aggregate ≠ s.aggregate) :
    (s.aggregate a.id).length < (s'.aggregate a.id).length := by
  cases call with
  | category events =>
      cases hr
      exact absurd rfl hstored
  | aggregate events version =>
      obtain ⟨stream, hsave, rfl, -, -⟩ := resume_aggregate hr
      rw [Store.setAggregate_self, saveEvents_eq_some hsave, List.length_append]
      have hne : events ≠ [] := by
        rintro rfl
        rw [saveEvents_eq_some hsave, List.append_nil] at hstored
        exact hstored (Function.update_eq_self a.id s.aggregate)
      have := List.length_pos_iff.mpr hne
      omega
  | ids =>
      obtain ⟨rfl, -⟩ := resume_ids hr
      exact absurd (Store.appendId_aggregate ..) hstored
  | bus t events rest =>
      obtain ⟨rfl, -⟩ := resume_bus hr
      exact absurd rfl hstored

theorem step_stored {d : Domain Id S P} {fault : Fault} {drop : Bool}
    (ho : w.objects[o]? = some obj)
    (hstep : EventStore.step d T w (.complete o fault drop) = some w')
    (hstored : w'.store.aggregate ≠ w.store.aggregate) :
    (w.store.aggregate obj.agg.id).length < (w'.store.aggregate obj.agg.id).length := by
  rcases step_object ho hstep with ⟨-, hnot⟩ | ⟨_, _, _, _, hl, -⟩ | ⟨_, _, hl, -⟩ |
    ⟨fault', drop', a, call, views, -, rfl, rfl⟩
  · exact absurd rfl (hnot fault drop)
  · cases hl
  · cases hl
  · rcases completeCall_cases T w o ⟨a, some call, views⟩ call fault' drop' with
      ⟨heq, -⟩ | ⟨s, a', next, hr, ⟨-, heq⟩ | ⟨-, heq⟩⟩ <;> rw [heq] at hstored ⊢
    · exact absurd rfl hstored
    · exact resume_stored hr hstored
    · exact resume_stored hr hstored

theorem Inv.never_stores_iff [Inhabited P] (hinv : Inv d w) (ho : w.objects[o]? = some obj)
    (hidle : obj.saving = none) (hroom : HasRoom T w.store obj.agg) :
    (∀ ls w', Transition.run (EventStore.step d.domain T) w ls = some w' → Short T w'.store →
        Transition.Along (EventStore.step d.domain T) (NeverStores d.domain T o) w ls) ↔
      Stale w.store obj := by
  refine ⟨fun h => ?_, fun h ls w' hrun hshort => h.never_stores hinv ho hrun hshort⟩
  by_contra hfresh
  obtain ⟨a, saving, views⟩ := obj
  obtain rfl : saving = none := hidle
  obtain ⟨ls, w', hrun, hshort, hstores⟩ := stores_of_not_stale hinv ho hroom hfresh
    ⟨"", "", ""⟩ default
  exact hstores (h ls w' hrun hshort)

/-- **An idle object can never store again iff it is stale**, whatever commands, saves and
    other objects' steps follow. -/
theorem never_stores_iff_stale [Inhabited P]
    (hreach : Transition.Reachable (EventStore.step d.domain T) World.init w)
    (ho : w.objects[o]? = some obj) (hidle : obj.saving = none)
    (hroom : HasRoom T w.store obj.agg) :
    (∀ ls w', Transition.run (EventStore.step d.domain T) w ls = some w' → Short T w'.store →
        Transition.Along (EventStore.step d.domain T) (NeverStores d.domain T o) w ls) ↔
      Stale w.store obj :=
  (inv_reachable hreach hroom.short).never_stores_iff ho hidle hroom

/-- **The first committer wins.** When an object has stored something in `T-{id}`, every
    other object of the same aggregate that there is at that time, saving or not, stores
    nothing there any more. -/
theorem first_committer_wins {w₁ w₂ : World Id S P} {o' : Nat} {obj' : Obj Id S P}
    {fault : Fault} {drop : Bool} {ls : List (Label Id P)}
    (hreach : Transition.Reachable (EventStore.step d.domain T) World.init w)
    (ho : w.objects[o]? = some obj)
    (hstep : EventStore.step d.domain T w (.complete o fault drop) = some w₁)
    (hstored : w₁.store.aggregate ≠ w.store.aggregate)
    (ho' : w.objects[o']? = some obj') (hne : o' ≠ o) (hid : obj'.agg.id = obj.agg.id)
    (hrun : Transition.run (EventStore.step d.domain T) w₁ ls = some w₂)
    (hshort : Short T w₂.store) :
    Transition.Along (EventStore.step d.domain T) (NeverStores d.domain T o') w₁ ls := by
  have hshort_w : Short T w.store :=
    hshort.of_extends ((step_extends hstep).trans (run_extends hrun))
  have hinv := inv_reachable hreach hshort_w
  obtain ⟨sk', loaded', ht'⟩ := hinv.objects _ (List.mem_of_getElem? ho')
  have hlonger := step_stored ho hstep hstored
  -- what the other counts was in the stream before
  have hstale : Stale w₁.store obj' := by
    have hcounted := (ht'.lastCounted_bounds hshort_w).2
    show obj'.lastCounted + 1 < (w₁.store.aggregate obj'.agg.id).length
    rw [hid] at hcounted ⊢
    omega
  have ho₁ : w₁.objects[o']? = some obj' := by
    rcases step_object ho' hstep with ⟨ho₁, -⟩ | ⟨_, _, _, _, hl, -⟩ | ⟨_, _, hl, -⟩ |
      ⟨_, _, _, _, _, hl, -⟩
    · exact ho₁
    · cases hl
    · cases hl
    · cases hl
      exact absurd rfl hne
  exact hstale.never_stores (hinv.step hshort_w hstep) ho₁ hrun hshort

/-- What joins, in closed form. -/
theorem joined_built {l : Label Id P} {id : Id} {n : Nat} (hinv : Inv d w)
    (hshort : Short T w.store) (hjoins : l.joins = some (id, n))
    (hstep : EventStore.step d.domain T w l = some w') :
    ∃ sk loaded changes views, w' = w.addObject (built d id sk loaded changes) views ∧
      loaded.length = min n (w.store.aggregate id).length ∧
      changes.length ≤ (w.store.aggregate id).length + (w.store.typed T).length := by
  cases l with
  | construct id' sk =>
      cases hjoins
      cases hstep
      exact ⟨sk, [], [], [], by rw [new_eq_built], by simp, Nat.zero_le _⟩
  | deserialize id' length sk =>
      cases hjoins
      simp only [EventStore.step, Option.map_eq_some_iff] at hstep
      obtain ⟨a, hsnap, rfl⟩ := hstep
      rw [snapshotOf_history d sk ((hinv.streams id).of_isPrefix (List.take_prefix n _))] at hsnap
      obtain rfl := Option.some.inj hsnap
      exact ⟨sk, _, [], [], rfl, List.length_take, Nat.zero_le _⟩
  | rehydrate id' length upTo sk =>
      cases hjoins
      simp only [EventStore.step, Option.bind_eq_some_iff] at hstep
      obtain ⟨a, hsnap, hstep⟩ := hstep
      have hread := List.take_prefix upTo (w.store.aggregate id)
      have hhist := (hinv.streams id).of_isPrefix hread
      have hlen := hread.length_le
      have hstream := hshort.aggregate id
      have htake : ((w.store.aggregate id).take upTo).length =
        min upTo (w.store.aggregate id).length := List.length_take
      generalize (w.store.aggregate id).take upTo = stream at *
      have hsplit : stream.take length ++ stream.drop length = stream :=
        List.take_append_drop length stream
      rw [snapshotOf_history d sk (hhist.of_isPrefix (List.take_prefix length stream))] at hsnap
      obtain rfl := Option.some.inj hsnap
      rw [← hsplit] at hhist
      have hupdate := updateAggregate_built d sk hhist (by rw [hsplit]; omega)
      rw [hsplit] at hupdate
      simp only [hupdate] at hstep
      refine ⟨sk, _, _, _, (Option.some.inj hstep).symm, ?_, ?_⟩
      · rw [List.length_take, htake]
        omega
      · rw [List.length_drop]
        omega
  | replay id' upTo sk =>
      cases hjoins
      simp only [EventStore.step] at hstep
      have hread := (List.take_prefix upTo (w.store.typed T)).length_le
      have hfilter := List.length_filter_le (fun e => decide (e.aggregateId = id))
        ((w.store.typed T).take upTo)
      have hcategory := hshort.category
      generalize hevents : orderByVersion (eventsOf id ((w.store.typed T).take upTo)) = events
        at hstep
      have hlen : events.length ≤ (w.store.typed T).length := by
        rw [← hevents, length_orderByVersion, eventsOf]
        omega
      have hown : ∀ e ∈ events, e.aggregateId = id := by
        intro e he
        rw [← hevents, mem_orderByVersion] at he
        simpa using (List.mem_filter.mp he).2
      split at hstep
      · rename_i a happly
        rw [new_eq_built] at happly
        have hhist := History.of_applyEvents d sk History.nil hown
          (by rw [List.nil_append]; omega) happly
        have hhist' : History id ([] ++ [] ++ events) := by simpa using hhist
        obtain rfl : built d id sk [] ([] ++ events) = a :=
          Outcome.returned.inj ((applyEvents_built d sk hhist').symm.trans happly)
        exact ⟨sk, [], _, _, (Option.some.inj hstep).symm, by simp,
          by rw [List.nil_append]; omega⟩
      · cases hstep
  | raise o t p => cases hjoins
  | save o => cases hjoins
  | complete o fault drop => cases hjoins

/-- **Bringing an object up to date does not help.** An object that joins can ever store
    something iff what it counts as stored is all of its stream: a new object or one that
    replays `T` counts nothing, and one that `UpdateAggregate` has read the rest of the stream
    for counts its snapshot only. -/
theorem joined_never_stores_iff [Inhabited P] {l : Label Id P} {id : Id} {n : Nat}
    (hreach : Transition.Reachable (EventStore.step d.domain T) World.init w)
    (hjoins : l.joins = some (id, n)) (hstep : EventStore.step d.domain T w l = some w')
    (hshort : Short T w.store)
    (hroom : 2 * ((w.store.aggregate id).length + (w.store.typed T).length) + 1 < 2 ^ 31 - 1) :
    (∀ ls w'', Transition.run (EventStore.step d.domain T) w' ls = some w'' → Short T w''.store →
        Transition.Along (EventStore.step d.domain T) (NeverStores d.domain T w.objects.length)
          w' ls) ↔
      n < (w.store.aggregate id).length := by
  have hinv := inv_reachable hreach hshort
  have hinv' := hinv.step hshort hstep
  obtain ⟨sk, loaded, changes, views, rfl, hloaded, hchanges⟩ :=
    joined_built hinv hshort hjoins hstep
  have ho : (w.addObject (built d id sk loaded changes) views).objects[w.objects.length]? =
      some ⟨built d id sk loaded changes, none, views⟩ := List.getElem?_concat_length
  have hlen := hshort.aggregate id
  have hcounted : (⟨built d id sk loaded changes, none, views⟩ : Obj Id S P).lastCounted =
      (loaded.length : Int) - 1 := expectedVersion_built_of_lt d id sk (by omega)
  rw [hinv'.never_stores_iff ho rfl ⟨hshort, ?_, ?_⟩]
  · show _ + 1 < ((w.store.aggregate id).length : Int) ↔ _
    rw [hcounted]
    omega
  · show (w.store.aggregate id).length + changes.length + 1 < _
    omega
  · show (w.store.typed T).length + changes.length + 1 < _
    omega

end Runs

section Users

open Milde.UserManagement

instance : Inhabited UserEvent := ⟨.ageChanged 0⟩

theorem short_twoWritersEnd : Short "User" twoWritersEnd.store := by
  refine ⟨fun id => ?_, by decide⟩
  by_cases h : id = 7
  · subst h
    decide
  · show (Function.update (Function.update (fun _ => []) 7 _) 7 _ id).length < _
    rw [Function.update_of_ne h, Function.update_of_ne h]
    decide

/-- The writer that was refused has lost for good. -/
theorem never_stores_refused :
    ∃ obj, twoWritersEnd.objects[1]? = some obj ∧ obj.agg.changes.length = 1 ∧
      ∀ ls w', Transition.run (step userDomain.domain "User") twoWritersEnd ls = some w' →
        Short "User" w'.store →
        Transition.Along (step userDomain.domain "User")
          (NeverStores userDomain.domain "User" 1) twoWritersEnd ls := by
  have hrun : Transition.run (step userDomain.domain "User") World.init twoWriters =
      some twoWritersEnd := rfl
  exact ⟨_, rfl, rfl, (never_stores_iff_stale ⟨_, hrun⟩ rfl rfl
    ⟨short_twoWritersEnd, by decide, by decide⟩).mpr (by decide)⟩

/-- The two writers just before the second call of the one that wins. -/
def twoWritersRace : World Nat UserState UserEvent :=
  (Transition.run (step userDomain.domain "User") World.init
    (twoWriters.take (twoWriters.length - 2))).getD World.init

theorem first_committer_wins_twoWriters :
    ∃ w₁, step userDomain.domain "User" twoWritersRace (.complete 2 .none false) = some w₁ ∧
      Transition.Along (step userDomain.domain "User")
        (NeverStores userDomain.domain "User" 1) w₁ [.complete 1 .none false] := by
  have hrace : Transition.run (step userDomain.domain "User") World.init
      (twoWriters.take (twoWriters.length - 2)) = some twoWritersRace := rfl
  have hwins : Transition.run (step userDomain.domain "User") twoWritersRace
      [.complete 2 .none false, .complete 1 .none false] = some twoWritersEnd := rfl
  obtain ⟨w₁, hstep, hnext⟩ := Transition.run_cons_eq_some.mp hwins
  have hwinner : twoWritersRace.objects[2]? = some _ := rfl
  have hloser : twoWritersRace.objects[1]? = some _ := rfl
  have hother : (1 : Nat) ≠ 2 := by decide
  refine ⟨w₁, hstep, first_committer_wins ⟨_, hrace⟩ hwinner hstep (fun hsame => ?_) hloser
    hother rfl hnext short_twoWritersEnd⟩
  cases hstep
  exact absurd (congrArg List.length (congrFun hsame 7)) (by decide)

/-- An object read back from a snapshot that Redis has kept too long. -/
theorem joined_never_stores_outdated :
    ∃ w, step userDomain.domain "User" twoWritersEnd (.deserialize 7 1 0) = some w ∧
      ∀ ls w', Transition.run (step userDomain.domain "User") w ls = some w' →
        Short "User" w'.store →
        Transition.Along (step userDomain.domain "User")
          (NeverStores userDomain.domain "User" twoWritersEnd.objects.length) w ls := by
  have hrun : Transition.run (step userDomain.domain "User") World.init twoWriters =
      some twoWritersEnd := rfl
  have hstep : step userDomain.domain "User" twoWritersEnd (.deserialize 7 1 0) = some _ := rfl
  exact ⟨_, hstep, (joined_never_stores_iff ⟨_, hrun⟩ rfl hstep short_twoWritersEnd
    (by decide)).mpr (by decide)⟩

end Users

end Milde.EventStore
