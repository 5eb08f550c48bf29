/-
  Milde.EventStore.LostUpdate

  No update of an aggregate's stream is lost, whatever the processes do.

  The invariant (`Tracks`) says of every object that it is the one built from some
  prefix of its stream and its uncommitted changes, and that what a running save
  carries still fits it.  Commands, failed stages, retries with uncleared changes and
  rehydrated objects whose replayed events sit in the changes all keep it, and with it
  the expected version is the number of the last event of the prefix.
-/
import Mathlib.Data.List.Infix
import Milde.UserManagement.User

namespace Milde.EventStore

open Milde.EventSourcing

variable {Id S P : Type}

-- ============================================================================
-- The invariant
-- ============================================================================

/-- What a reader saw before each of `changes`, in closed form. -/
def viewsOf (d : TotalDomain Id S P) (sk : Int32) :
    List (AggregateEvent Id P) → List (AggregateEvent Id P) → List (View S)
  | _, [] => []
  | loaded, e :: es => viewOf d sk loaded :: viewsOf d sk (loaded ++ [e]) es

/-- What a running save carries fits the object; once the batch is stored, the stream
    holds all of it. -/
def Awaiting.Fits (stream loaded : List (AggregateEvent Id P)) (a : Aggregate Id S P) :
    Awaiting Id P → Prop
  | .category events => events = a.changes
  | .aggregate events version => events = a.changes ∧ version = expectedVersion a a.changes
  | .ids => loaded ++ a.changes <+: stream
  | .bus _ _ _ => loaded ++ a.changes <+: stream

/-- The object was loaded from the prefix `loaded` of its stream. -/
structure Tracks (d : TotalDomain Id S P) (s : Store Id P) (obj : Obj Id S P) (sk : Int32)
    (loaded : List (AggregateEvent Id P)) : Prop where
  object : obj.agg = built d obj.agg.id sk loaded obj.agg.changes
  history : History obj.agg.id (loaded ++ obj.agg.changes)
  seen : loaded <+: s.aggregate obj.agg.id
  views : obj.computedFrom = viewsOf d sk loaded obj.agg.changes
  saving : ∀ call, obj.saving = some call →
    call.Fits (s.aggregate obj.agg.id) loaded obj.agg

/-- Each event of an accepted batch was computed from the replay of the events stored
    before the batch and the earlier events of the batch. -/
def Commit.FromReplay [DecidableEq Id] (d : TotalDomain Id S P) (c : Commit Id S P) : Prop :=
  ∃ sk, ∀ i, i < c.batch.length → ∃ a,
    (Aggregate.new d.domain c.id sk).applyEvents d.domain (c.before ++ c.batch.take i) =
      .returned a ∧ c.computedFrom[i]? = some a.view

/-- The batch is in its stream, right after what it was appended to and computed from. -/
structure Commit.Recorded [DecidableEq Id] (d : TotalDomain Id S P) (s : Store Id P)
    (c : Commit Id S P) : Prop where
  stored : c.before ++ c.batch <+: s.aggregate c.id
  computed : c.FromReplay d

structure Inv [DecidableEq Id] (d : TotalDomain Id S P) (w : World Id S P) : Prop where
  streams : ∀ id, History id (w.store.aggregate id)
  objects : ∀ obj ∈ w.objects, ∃ sk loaded, Tracks d w.store obj sk loaded
  commits : ∀ c ∈ w.commits, c.Recorded d w.store

/-- Streams of the range the source's `int` versions can number. -/
structure Short (T : String) (s : Store Id P) : Prop where
  aggregate : ∀ id, (s.aggregate id).length < 2 ^ 31 - 1
  category : (s.typed T).length < 2 ^ 31 - 1

/-- Streams only grow. -/
structure Extends (s s' : Store Id P) : Prop where
  aggregate : ∀ id, s.aggregate id <+: s'.aggregate id
  typed : ∀ name, s.typed name <+: s'.typed name

theorem Extends.refl (s : Store Id P) : Extends s s :=
  ⟨fun _ => List.prefix_rfl, fun _ => List.prefix_rfl⟩

theorem Extends.trans {s s' s'' : Store Id P} (h : Extends s s') (h' : Extends s' s'') :
    Extends s s'' :=
  ⟨fun id => (h.aggregate id).trans (h'.aggregate id),
    fun name => (h.typed name).trans (h'.typed name)⟩

theorem Short.of_extends {T : String} {s s' : Store Id P} (h : Short T s')
    (hext : Extends s s') : Short T s :=
  ⟨fun id => Nat.lt_of_le_of_lt (hext.aggregate id).length_le (h.aggregate id),
    Nat.lt_of_le_of_lt (hext.typed T).length_le h.category⟩

theorem Extends.appendTyped (s : Store Id P) (name : String)
    (events : List (AggregateEvent Id P)) : Extends s (s.appendTyped name events) where
  aggregate _ := List.prefix_rfl
  typed name' := by
    by_cases h : name' = name
    · subst h
      rw [Store.appendTyped_typed_self]
      exact List.prefix_append _ _
    · rw [Store.appendTyped_typed_ne s h]

theorem Commit.Recorded.mono [DecidableEq Id] {d : TotalDomain Id S P} {s s' : Store Id P}
    {c : Commit Id S P} (h : c.Recorded d s) (hext : Extends s s') : c.Recorded d s' where
  stored := h.stored.trans (hext.aggregate c.id)
  computed := h.computed

-- ============================================================================
-- Views
-- ============================================================================

theorem viewsOf_append (d : TotalDomain Id S P) (sk : Int32)
    (loaded changes : List (AggregateEvent Id P)) (e : AggregateEvent Id P) :
    viewsOf d sk loaded (changes ++ [e]) =
      viewsOf d sk loaded changes ++ [viewOf d sk (loaded ++ changes)] := by
  induction changes generalizing loaded with
  | nil => simp [viewsOf]
  | cons e₀ changes ih => simp [viewsOf, ih]

theorem getElem?_viewsOf (d : TotalDomain Id S P) (sk : Int32)
    (loaded changes : List (AggregateEvent Id P)) {i : Nat} (hi : i < changes.length) :
    (viewsOf d sk loaded changes)[i]? = some (viewOf d sk (loaded ++ changes.take i)) := by
  induction changes generalizing loaded i with
  | nil => exact absurd hi (Nat.not_lt_zero i)
  | cons e changes ih =>
      cases i with
      | zero => simp [viewsOf]
      | succ i =>
          rw [viewsOf, List.getElem?_cons_succ, ih (loaded ++ [e]) (by simpa using hi)]
          simp

theorem viewsAlong_built [DecidableEq Id] (d : TotalDomain Id S P) {id : Id} (sk : Int32)
    {loaded changes es : List (AggregateEvent Id P)} (h : History id (loaded ++ changes ++ es)) :
    viewsAlong d.domain (built d id sk loaded changes) es =
      viewsOf d sk (loaded ++ changes) es := by
  induction es generalizing changes with
  | nil => rfl
  | cons e es ih =>
      have hpre : loaded ++ changes ++ [e] <+: loaded ++ changes ++ e :: es := ⟨es, by simp⟩
      have hrest : History id (loaded ++ (changes ++ [e]) ++ es) := by simpa using h
      have ih := ih hrest
      rw [viewsAlong, applyEvent_built d sk (h.of_isPrefix hpre), viewsOf]
      rw [← List.append_assoc] at ih
      exact congrArg (_ :: ·) ih

-- ============================================================================
-- Objects keep tracking
-- ============================================================================

section Tracks

variable {d : TotalDomain Id S P} {s s' : Store Id P} {obj : Obj Id S P} {sk : Int32}
  {loaded : List (AggregateEvent Id P)}

/-- Growing streams do not disturb an object. -/
theorem Tracks.mono (h : Tracks d s obj sk loaded) (hext : Extends s s') :
    Tracks d s' obj sk loaded where
  object := h.object
  history := h.history
  seen := h.seen.trans (hext.aggregate _)
  views := h.views
  saving := by
    intro call hcall
    have hfits := h.saving call hcall
    cases call with
    | category events => exact hfits
    | aggregate events version => exact hfits
    | ids => exact hfits.trans (hext.aggregate _)
    | bus t events rest => exact hfits.trans (hext.aggregate _)

/-- A failed call leaves the object tracking the same prefix. -/
theorem Tracks.idle (h : Tracks d s obj sk loaded) :
    Tracks d s { obj with saving := none } sk loaded where
  object := h.object
  history := h.history
  seen := h.seen
  views := h.views
  saving := by
    intro call hcall
    cases hcall

/-- An object read from a prefix of its stream. -/
theorem tracks_built (d : TotalDomain Id S P) {id : Id} (sk : Int32)
    {changes : List (AggregateEvent Id P)} {views : List (View S)}
    (hhist : History id (loaded ++ changes)) (hseen : loaded <+: s.aggregate id)
    (hviews : views = viewsOf d sk loaded changes) :
    Tracks d s ⟨built d id sk loaded changes, none, views⟩ sk loaded where
  object := rfl
  history := hhist
  seen := hseen
  views := hviews
  saving := by
    intro call hcall
    cases hcall

/-- A command raises an event on an idle object. -/
theorem Tracks.raise [DecidableEq Id] {a : Aggregate Id S P} {views : List (View S)}
    (h : Tracks d s ⟨a, none, views⟩ sk loaded) (t : ClrType) (p : P) :
    ∃ a', a.applyEvent d.domain (a.nextEvent t p) = .returned a' ∧
      Tracks d s ⟨a', none, views ++ [a.view]⟩ sk loaded := by
  have hobj : a = built d a.id sk loaded a.changes := h.object
  have hhist := h.history.nextEvent d sk t p
  have happly := applyEvent_built d sk hhist
  rw [← hobj] at happly hhist
  refine ⟨_, happly, tracks_built d sk ?_ h.seen ?_⟩
  · rw [← List.append_assoc]
    exact hhist
  · rw [viewsOf_append, ← h.views, ← built_view d a.id, ← hobj]

/-- `SaveAggregate` starts on an idle object. -/
theorem Tracks.save {a : Aggregate Id S P} {views : List (View S)}
    (h : Tracks d s ⟨a, none, views⟩ sk loaded) :
    Tracks d s ⟨a, some (beginSave a), views⟩ sk loaded where
  object := h.object
  history := h.history
  seen := h.seen
  views := h.views
  saving := by
    intro call hcall
    cases hcall
    rfl

/-- With the batch stored, the publish loop goes on or the save ends. -/
theorem Tracks.publishNext {a : Aggregate Id S P} {saving : Option (Awaiting Id P)}
    {views : List (View S)} (h : Tracks d s ⟨a, saving, views⟩ sk loaded)
    (hstored : loaded ++ a.changes <+: s.aggregate a.id)
    (groups : List (ClrType × List (AggregateEvent Id P))) :
    ∃ loaded', Tracks d s
      ⟨(publishNext a groups).1, (publishNext a groups).2,
        if (publishNext a groups).2.isNone then [] else views⟩ sk loaded' := by
  cases groups with
  | nil =>
      -- `MarkAsCommited`: the changes become part of what the object was loaded from
      have hobj : a = built d a.id sk loaded a.changes := h.object
      have hmark : a.markAsCommited = built d a.id sk (loaded ++ a.changes) [] := by
        rw [← markAsCommited_built, ← hobj]
      refine ⟨loaded ++ a.changes, ?_⟩
      simp only [EventStore.publishNext, Option.isNone_none, if_true, hmark]
      refine tracks_built d sk ?_ hstored rfl
      simpa using h.history
  | cons g rest =>
      exact ⟨loaded,
        { object := h.object
          history := h.history
          seen := h.seen
          views := h.views
          saving := by
            intro call hcall
            cases hcall
            exact hstored }⟩

end Tracks

-- ============================================================================
-- The store calls
-- ============================================================================

section Resume

variable [DecidableEq Id] {d : TotalDomain Id S P} {T : String} {drop : Bool}
  {s s' : Store Id P} {a a' : Aggregate Id S P} {call : Awaiting Id P}
  {next : Option (Awaiting Id P)}

theorem resume_extends (h : resume T drop s a call = some (s', a', next)) : Extends s s' := by
  cases call with
  | category events =>
      cases h
      exact Extends.appendTyped s T events
  | aggregate events version =>
      obtain ⟨stream, hsave, rfl, rfl, rfl⟩ := resume_aggregate h
      refine ⟨fun id => ?_, fun _ => List.prefix_rfl⟩
      by_cases hid : id = a.id
      · subst hid
        rw [Store.setAggregate_self, saveEvents_eq_some hsave]
        exact List.prefix_append _ _
      · rw [Store.setAggregate_ne s hid]
  | ids =>
      obtain ⟨rfl, -⟩ := resume_ids h
      exact ⟨fun id => by simp, fun name => by simp⟩
  | bus t events rest =>
      obtain ⟨rfl, -⟩ := resume_bus h
      exact Extends.appendTyped s (getStream t) events

omit [DecidableEq Id] in
/-- The expected version of a save is the number of the last event its object was
    loaded from. -/
theorem Tracks.expects {saving : Option (Awaiting Id P)} {views : List (View S)}
    {sk : Int32} {loaded : List (AggregateEvent Id P)}
    (h : Tracks d s ⟨a, saving, views⟩ sk loaded) (hshort : Short T s) :
    expectedVersion a a.changes = (loaded.length : Int) - 1 := by
  have hobj : a = built d a.id sk loaded a.changes := h.object
  have hlt : loaded.length < 2 ^ 31 :=
    Nat.lt_of_le_of_lt h.seen.length_le (Nat.lt_trans (hshort.aggregate a.id) (by omega))
  have hversion : expectedVersion (built d a.id sk loaded a.changes) a.changes = _ :=
    expectedVersion_built_of_lt d a.id sk hlt
  rw [← hobj] at hversion
  exact hversion

omit [DecidableEq Id] in
/-- The append to `T-{id}` was accepted: the object had seen all of the stream. -/
theorem Tracks.accepted {views : List (View S)} {sk : Int32}
    {loaded stream : List (AggregateEvent Id P)} {events : List (AggregateEvent Id P)}
    {version : Int} (h : Tracks d s ⟨a, some (.aggregate events version), views⟩ sk loaded)
    (hshort : Short T s) (hsave : saveEvents (s.aggregate a.id) events version = some stream) :
    events = a.changes ∧ s.aggregate a.id = loaded ∧ stream = loaded ++ a.changes := by
  have hfits : events = a.changes ∧ version = expectedVersion a a.changes := h.saving _ rfl
  obtain ⟨rfl, rfl⟩ := hfits
  have hobj : a = built d a.id sk loaded a.changes := h.object
  have hsave' : saveEvents (s.aggregate a.id) a.changes
      (expectedVersion (built d a.id sk loaded a.changes) a.changes) = some stream := by
    rw [← hobj]
    exact hsave
  exact ⟨rfl, saveEvents_built d a.id sk h.seen (hshort.aggregate a.id) hsave'⟩

/-- A call that takes effect leaves well-formed streams. -/
theorem Tracks.streams {views : List (View S)} {sk : Int32}
    {loaded : List (AggregateEvent Id P)} (h : Tracks d s ⟨a, some call, views⟩ sk loaded)
    (hshort : Short T s) (hstreams : ∀ id, History id (s.aggregate id))
    (hr : resume T drop s a call = some (s', a', next)) (id : Id) :
    History id (s'.aggregate id) := by
  cases call with
  | category events =>
      cases hr
      exact hstreams id
  | aggregate events version =>
      obtain ⟨stream, hsave, rfl, rfl, rfl⟩ := resume_aggregate hr
      obtain ⟨-, -, rfl⟩ := h.accepted hshort hsave
      by_cases hid : id = a.id
      · subst hid
        rw [Store.setAggregate_self]
        exact h.history
      · rw [Store.setAggregate_ne s hid]
        exact hstreams id
  | ids =>
      obtain ⟨rfl, -⟩ := resume_ids hr
      simpa using hstreams id
  | bus t events rest =>
      obtain ⟨rfl, -⟩ := resume_bus hr
      simpa using hstreams id

/-- A call that succeeds leaves its object tracking its stream. -/
theorem Tracks.resume {views : List (View S)} {sk : Int32}
    {loaded : List (AggregateEvent Id P)} (h : Tracks d s ⟨a, some call, views⟩ sk loaded)
    (hshort : Short T s) (hr : resume T drop s a call = some (s', a', next)) :
    ∃ loaded', Tracks d s' ⟨a', next, if next.isNone then [] else views⟩ sk loaded' := by
  have h' := h.mono (resume_extends hr)
  have hfits := h'.saving _ rfl
  cases call with
  | category events =>
      cases hr
      obtain rfl : events = a.changes := hfits
      exact ⟨loaded,
        { object := h'.object
          history := h'.history
          seen := h'.seen
          views := h'.views
          saving := by
            intro call hcall
            cases hcall
            exact ⟨rfl, rfl⟩ }⟩
  | aggregate events version =>
      obtain ⟨stream, hsave, rfl, rfl, rfl⟩ := resume_aggregate hr
      obtain ⟨-, -, rfl⟩ := h.accepted hshort hsave
      exact ⟨loaded,
        { object := h'.object
          history := h'.history
          seen := h'.seen
          views := h'.views
          saving := by
            intro call hcall
            cases hcall
            simp [Awaiting.Fits] }⟩
  | ids =>
      obtain ⟨rfl, hnext⟩ := resume_ids hr
      have hpub := h'.publishNext hfits (eventsByType a.getUncommitedChanges)
      rw [hnext] at hpub
      exact hpub
  | bus t events rest =>
      obtain ⟨rfl, hnext⟩ := resume_bus hr
      have hpub := h'.publishNext hfits rest
      rw [hnext] at hpub
      exact hpub

/-- A batch accepted by its stream was computed from the replay of that stream. -/
theorem Tracks.recorded {views : List (View S)} {sk : Int32}
    {loaded : List (AggregateEvent Id P)} {events : List (AggregateEvent Id P)} {version : Int}
    (h : Tracks d s ⟨a, some (.aggregate events version), views⟩ sk loaded) (hshort : Short T s)
    (hr : EventStore.resume T drop s a (.aggregate events version) = some (s', a', next)) :
    Commit.Recorded d s' ⟨a.id, s.aggregate a.id, events, views⟩ := by
  obtain ⟨stream, hsave, rfl, rfl, rfl⟩ := resume_aggregate hr
  obtain ⟨rfl, hloaded, rfl⟩ := h.accepted hshort hsave
  refine ⟨?_, ?_⟩
  · show s.aggregate a.id ++ a.changes <+: (s.setAggregate a.id _).aggregate a.id
    rw [Store.setAggregate_self, hloaded]
  · refine ⟨sk, fun i hi => ?_⟩
    have hpre : loaded ++ a.changes.take i <+: loaded ++ a.changes :=
      List.prefix_append_right_inj loaded |>.mpr (List.take_prefix i a.changes)
    refine ⟨built d a.id sk [] (loaded ++ a.changes.take i), ?_, ?_⟩
    · rw [hloaded]
      exact applyEvents_new d sk (h.history.of_isPrefix hpre)
    · have hviews : views = viewsOf d sk loaded a.changes := h.views
      show views[i]? = _
      rw [hviews]
      exact getElem?_viewsOf d sk loaded a.changes hi

end Resume

-- ============================================================================
-- Steps and runs
-- ============================================================================

section Run

variable [DecidableEq Id] {d : TotalDomain Id S P} {T : String} {w w' : World Id S P}

theorem completeCall_extends (w : World Id S P) (o : Nat) (obj : Obj Id S P)
    (call : Awaiting Id P) (fault : Fault) (drop : Bool) :
    Extends w.store (w.completeCall T o obj call fault drop).store := by
  rcases completeCall_cases T w o obj call fault drop with
    ⟨h, -⟩ | ⟨s, a, next, hr, ⟨-, h⟩ | ⟨-, h⟩⟩
  · rw [h]
    exact Extends.refl _
  · rw [h]
    exact resume_extends hr
  · rw [h]
    exact resume_extends hr

theorem step_extends {d : Domain Id S P} {l : Label Id P} (h : step d T w l = some w') :
    Extends w.store w'.store := by
  rcases step_cases h with ⟨_, _, -, rfl⟩ | ⟨_, _, _, _, -, -, rfl⟩ |
    ⟨_, _, _, _, _, _, -, -, -, rfl⟩ | ⟨_, _, _, _, -, -, rfl⟩ |
    ⟨_, _, _, _, _, -, -, ⟨_, -, rfl⟩ | ⟨_, -, rfl⟩⟩ | ⟨_, _, _, -, -, rfl⟩ |
    ⟨o, fault, drop, a, call, views, -, -, rfl⟩
  all_goals first
    | exact completeCall_extends _ _ _ _ _ _
    | exact Extends.refl _

/-- A new object joins. -/
theorem Inv.addObject (h : Inv d w) {a : Aggregate Id S P} {views : List (View S)} {sk : Int32}
    {loaded : List (AggregateEvent Id P)}
    (ht : Tracks d w.store ⟨a, none, views⟩ sk loaded) : Inv d (w.addObject a views) where
  streams := h.streams
  objects := by
    intro obj hobj
    rcases List.mem_append.mp hobj with hobj | hobj
    · exact h.objects obj hobj
    · rw [List.mem_singleton.mp hobj]
      exact ⟨sk, loaded, ht⟩
  commits := h.commits

/-- One object changes and the store grows. -/
theorem Inv.setObject (h : Inv d w) {s : Store Id P} {commits : List (Commit Id S P)}
    {o : Nat} {obj : Obj Id S P} (hext : Extends w.store s)
    (hstreams : ∀ id, History id (s.aggregate id))
    (hobj : ∃ sk loaded, Tracks d s obj sk loaded)
    (hcommits : ∀ c ∈ commits, c.Recorded d s) :
    Inv d { store := s, objects := w.objects.set o obj, commits } where
  streams := hstreams
  objects := by
    intro obj' hobj'
    rcases List.mem_or_eq_of_mem_set hobj' with hmem | rfl
    · obtain ⟨sk, loaded, ht⟩ := h.objects obj' hmem
      exact ⟨sk, loaded, ht.mono hext⟩
    · exact hobj
  commits := hcommits

/-- Whatever is logged with a call that took effect is recorded. -/
theorem Inv.commitLog (h : Inv d w) {a a' : Aggregate Id S P} {call : Awaiting Id P}
    {views : List (View S)} {sk : Int32} {loaded : List (AggregateEvent Id P)}
    {s : Store Id P} {next : Option (Awaiting Id P)} {drop : Bool}
    (ht : Tracks d w.store ⟨a, some call, views⟩ sk loaded) (hshort : Short T w.store)
    (hr : resume T drop w.store a call = some (s, a', next)) :
    ∀ c ∈ w.commitLog ⟨a, some call, views⟩ call, c.Recorded d s := by
  intro c hc
  have hold : c ∈ w.commits → c.Recorded d s := fun hc =>
    (h.commits c hc).mono (resume_extends hr)
  cases call with
  | aggregate events version =>
      rcases List.mem_append.mp hc with hc | hc
      · exact hold hc
      · rw [List.mem_singleton.mp hc]
        exact ht.recorded hshort hr
  | category events => exact hold hc
  | ids => exact hold hc
  | bus t events rest => exact hold hc

theorem Inv.completeCall (h : Inv d w) (hshort : Short T w.store) {o : Nat}
    {a : Aggregate Id S P} {call : Awaiting Id P} {views : List (View S)}
    (ho : w.objects[o]? = some ⟨a, some call, views⟩) (fault : Fault) (drop : Bool) :
    Inv d (w.completeCall T o ⟨a, some call, views⟩ call fault drop) := by
  obtain ⟨sk, loaded, ht⟩ := h.objects _ (List.mem_of_getElem? ho)
  rcases completeCall_cases T w o _ call fault drop with ⟨heq, -⟩ |
      ⟨s, a', next, hr, ⟨-, heq⟩ | ⟨-, heq⟩⟩ <;> rw [heq]
  · exact h.setObject (Extends.refl _) h.streams ⟨sk, loaded, ht.idle⟩ h.commits
  · -- the call took effect but its success is lost: the object keeps its changes
    exact h.setObject (resume_extends hr) (ht.streams hshort h.streams hr)
      ⟨sk, loaded, (ht.mono (resume_extends hr)).idle⟩ (h.commitLog ht hshort hr)
  · obtain ⟨loaded', ht'⟩ := ht.resume hshort hr
    exact h.setObject (resume_extends hr) (ht.streams hshort h.streams hr)
      ⟨sk, loaded', ht'⟩ (h.commitLog ht hshort hr)

/-- Every step keeps the invariant. -/
theorem Inv.step (h : Inv d w) (hshort : Short T w.store) {l : Label Id P}
    (hstep : step d.domain T w l = some w') : Inv d w' := by
  rcases step_cases hstep with ⟨id, sk, -, rfl⟩ | ⟨id, n, sk, a, -, hsnap, rfl⟩ |
    ⟨id, n, m, sk, a, a', -, hsnap, hupd, rfl⟩ | ⟨id, m, sk, a, -, happly, rfl⟩ |
    ⟨o, t, p, a, views, -, ho, hraise⟩ | ⟨o, a, views, -, ho, rfl⟩ |
    ⟨o, fault, drop, a, call, views, -, ho, rfl⟩
  · rw [new_eq_built]
    exact h.addObject (tracks_built d sk History.nil List.nil_prefix rfl)
  · -- the snapshot of a prefix
    have hpre := List.take_prefix n (w.store.aggregate id)
    have hhist := (h.streams id).of_isPrefix hpre
    rw [snapshotOf_history d sk hhist] at hsnap
    obtain rfl := Option.some.inj hsnap
    exact h.addObject (tracks_built d sk (by simpa using hhist) hpre rfl)
  · -- the snapshot of a prefix, and the rest of what was read replayed on it
    have hread := List.take_prefix m (w.store.aggregate id)
    have hpre := (List.take_prefix n ((w.store.aggregate id).take m)).trans hread
    have hhist := (h.streams id).of_isPrefix hread
    have hlen := hread.length_le
    have hshort := hshort.aggregate id
    generalize hstream : (w.store.aggregate id).take m = stream at *
    have hsplit : stream.take n ++ stream.drop n = stream := List.take_append_drop n stream
    rw [snapshotOf_history d sk (hhist.of_isPrefix (List.take_prefix n stream))] at hsnap
    obtain rfl := Option.some.inj hsnap
    rw [← hsplit] at hhist hlen
    have hb := updateAggregate_built d sk hhist (by omega)
    rw [hsplit] at hb
    obtain rfl : built d id sk (stream.take n) (stream.drop n) = a' :=
      Outcome.returned.inj (hb.symm.trans hupd)
    refine h.addObject (tracks_built d sk hhist hpre ?_)
    have hnum := (Numbered.append_iff.mp hhist.numbered).2
    rw [orderByVersion_of_numbered hnum (by rw [List.length_append] at hlen; omega)]
    have hhist' : History id (stream.take n ++ [] ++ stream.drop n) := by simpa using hhist
    simpa using viewsAlong_built d sk hhist'
  · -- what a new object took in of the stream `T` is a history, stored or not
    have hread := (List.take_prefix m (w.store.typed T)).length_le
    have hfilter := List.length_filter_le (fun e => decide (e.aggregateId = id))
      ((w.store.typed T).take m)
    generalize hevents : orderByVersion (eventsOf id ((w.store.typed T).take m)) = events at *
    have hown : ∀ e ∈ events, e.aggregateId = id := by
      intro e he
      rw [← hevents, mem_orderByVersion] at he
      simpa using (List.mem_filter.mp he).2
    have hlen : ([] ++ events).length < 2 ^ 31 - 1 := by
      have hcat := hshort.category
      rw [List.nil_append, ← hevents, length_orderByVersion, eventsOf]
      omega
    rw [new_eq_built] at happly ⊢
    have hhist := History.of_applyEvents d sk History.nil hown hlen happly
    have hhist' : History id ([] ++ [] ++ events) := by simpa using hhist
    have hb := applyEvents_built d sk hhist'
    obtain rfl : built d id sk [] ([] ++ events) = a :=
      Outcome.returned.inj (hb.symm.trans happly)
    refine h.addObject (tracks_built d sk hhist List.nil_prefix ?_)
    exact viewsAlong_built d sk hhist'
  · obtain ⟨sk, loaded, ht⟩ := h.objects _ (List.mem_of_getElem? ho)
    obtain ⟨a', happly, ht'⟩ := ht.raise t p
    rcases hraise with ⟨b, hb, rfl⟩ | ⟨b, hb, rfl⟩
    · obtain rfl : a' = b := Outcome.returned.inj (happly.symm.trans hb)
      exact h.setObject (Extends.refl _) h.streams ⟨sk, loaded, ht'⟩ h.commits
    · rw [happly] at hb
      cases hb
  · obtain ⟨sk, loaded, ht⟩ := h.objects _ (List.mem_of_getElem? ho)
    exact h.setObject (Extends.refl _) h.streams ⟨sk, loaded, ht.save⟩ h.commits
  · exact h.completeCall hshort ho fault drop

theorem inv_init : Inv d (World.init : World Id S P) where
  streams _ := History.nil
  objects _ hobj := absurd hobj List.not_mem_nil
  commits _ hc := absurd hc List.not_mem_nil

theorem run_extends {d : Domain Id S P} {ls : List (Label Id P)}
    (hrun : Transition.run (step d T) w ls = some w') : Extends w.store w'.store :=
  Transition.run_invariant (I := fun v => Extends w.store v.store)
    (fun _ _ _ h hstep => h.trans (step_extends hstep)) (Extends.refl _) hrun

/-- Streams only grow: if they are short at the end of a run, they were all along. -/
theorem along_short {d : Domain Id S P} {ls : List (Label Id P)}
    (hrun : Transition.run (step d T) w ls = some w') (hshort : Short T w'.store) :
    Transition.Along (step d T) (fun w _ => Short T w.store) w ls := by
  induction ls generalizing w with
  | nil => trivial
  | cons l ls ih =>
      refine ⟨hshort.of_extends (run_extends hrun), fun u hu => ?_⟩
      obtain ⟨v, hv, hrun⟩ := Transition.run_cons_eq_some.mp hrun
      obtain rfl : v = u := Option.some.inj (hv.symm.trans hu)
      exact ih hrun

theorem inv_run {ls : List (Label Id P)}
    (hshort : Transition.Along (step d.domain T) (fun w _ => Short T w.store) w ls)
    (hinv : Inv d w) (hrun : Transition.run (step d.domain T) w ls = some w') : Inv d w' :=
  Transition.run_invariant_along (fun _ _ _ h hshort hstep => h.step hshort hstep) hinv hshort hrun

/-- The invariant holds in every reachable state with short streams. -/
theorem inv_reachable (h : Transition.Reachable (step d.domain T) World.init w)
    (hshort : Short T w.store) : Inv d w := by
  obtain ⟨ls, hrun⟩ := h
  exact inv_run (along_short hrun hshort) inv_init hrun

/-- **No lost update.** In every reachable state each stream `T-{id}` holds events
    with versions exactly `1, 2, …, n` in order and one shard key, and every accepted
    batch stands in its stream after the events it was computed from, by replay. -/
theorem no_lost_update (h : Transition.Reachable (step d.domain T) World.init w)
    (hshort : Short T w.store) :
    (∀ id,
      (w.store.aggregate id).map (fun e => e.version.toInt) =
        (List.range (w.store.aggregate id).length).map (fun i : Nat => (i : Int) + 1) ∧
      (∃ sk, ∀ e ∈ w.store.aggregate id, e.aggregateId = id ∧ e.shardKey = sk)) ∧
    (∀ c ∈ w.commits, c.Recorded d w.store) := by
  have hinv := inv_reachable h hshort
  refine ⟨fun id => ⟨(hinv.streams id).versions_toInt (hshort.aggregate id), ?_⟩, hinv.commits⟩
  refine ⟨shardOf 0 (w.store.aggregate id), fun e he => ?_⟩
  exact ⟨(hinv.streams id).own e he, ((hinv.streams id).shardOf_eq he 0).symm⟩

end Run

section Users

open Milde.UserManagement

/-- A user is created and saved; two processes read it back, both change it, and the
    one whose append comes second is refused. -/
def twoWriters : List (Label Nat UserEvent) :=
  let created := UserEvent.created (some "a") none 30
  [.construct 7 41, .raise 0 created.type created, .save 0] ++
    List.replicate 4 (.complete 0 .none false) ++
  [.deserialize 7 1 0, .deserialize 7 1 0,
    .raise 1 (UserEvent.ageChanged 31).type (.ageChanged 31),
    .raise 2 (UserEvent.ageChanged 32).type (.ageChanged 32),
    .save 1, .save 2, .complete 1 .none false, .complete 2 .none false,
    .complete 2 .none false, .complete 1 .none false]

def twoWritersEnd : World Nat UserState UserEvent :=
  (Transition.run (step userDomain.domain "User") World.init twoWriters).getD World.init

theorem no_lost_update_twoWriters :
    Transition.run (step userDomain.domain "User") World.init twoWriters = some twoWritersEnd ∧
      twoWritersEnd.commits.length = 2 ∧
      (∀ id,
        (twoWritersEnd.store.aggregate id).map (fun e => e.version.toInt) =
          (List.range (twoWritersEnd.store.aggregate id).length).map
            (fun i : Nat => (i : Int) + 1) ∧
        (∃ sk, ∀ e ∈ twoWritersEnd.store.aggregate id, e.aggregateId = id ∧ e.shardKey = sk)) ∧
      (∀ c ∈ twoWritersEnd.commits, c.Recorded userDomain twoWritersEnd.store) := by
  have hrun : Transition.run (step userDomain.domain "User") World.init twoWriters =
      some twoWritersEnd := rfl
  have haggregate : ∀ id, (twoWritersEnd.store.aggregate id).length < 2 ^ 31 - 1 := by
    intro id
    by_cases h : id = 7
    · subst h
      decide
    · show (Function.update (Function.update (fun _ => []) 7 _) 7 _ id).length < _
      rw [Function.update_of_ne h, Function.update_of_ne h]
      decide
  exact ⟨hrun, rfl, no_lost_update ⟨_, hrun⟩ ⟨haggregate, by decide⟩⟩

end Users

end Milde.EventStore
