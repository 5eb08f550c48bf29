/-
  Milde.EventStore.Acceptance

  Runs in which no `ApplyEvent` of a command throws.

  `CallApply` may well throw, at other events or in other states.  What it has taken once
  it takes again, so in such a run every stored stream replays and every object is a
  replay (`Accepted`), and the run is one of the total domain part too (`step_total`).
-/
import Milde.EventStore.LostUpdate

namespace Milde.EventStore

open Milde.EventSourcing

variable {Id S P : Type} [DecidableEq Id]

/-- The event of a command is applied without a throw. -/
def Accepting (d : Domain Id S P) (w : World Id S P) : Label Id P → Prop
  | .raise o type payload => ∀ a views, w.objects[o]? = some ⟨a, none, views⟩ →
      ∃ a', a.applyEvent d (a.nextEvent type payload) = .returned a'
  | _ => True

/-- A total `Apply` takes the next event of every object. -/
theorem accepting_of_total (d : TotalDomain Id S P) (w : World Id S P) (l : Label Id P) :
    Accepting d.domain w l := by
  cases l with
  | raise o type payload =>
      intro a views _
      exact ⟨_, Aggregate.applyEvent_of_next d rfl rfl (Or.inr rfl)⟩
  | _ => trivial

/-- The object is what `CallApply` has made, without a throw, of the beginning `loaded` of
    its stream and its changes. -/
structure Accepted (d : Domain Id S P) (s : Store Id P) (a : Aggregate Id S P)
    (loaded : List (AggregateEvent Id P)) : Prop where
  seen : loaded <+: s.aggregate a.id
  accepts : d.Accepts d.init (loaded ++ a.changes)
  state : a.state = (loaded ++ a.changes).foldl d.total.apply d.init
  version : a.version = Int32.ofNat (loaded.length + a.changes.length)

structure AcceptedWorld (d : Domain Id S P) (w : World Id S P) : Prop where
  streams : ∀ id, d.Accepts d.init (w.store.aggregate id)
  objects : ∀ obj ∈ w.objects, ∃ loaded, Accepted d w.store obj.agg loaded

-- ============================================================================
-- The total domain part
-- ============================================================================

section Total

variable {d : Domain Id S P} {T : String} {w w' : World Id S P} {a a' : Aggregate Id S P}

theorem viewsAlong_total {es : List (AggregateEvent Id P)}
    (h : a.applyEvents d es = .returned a') :
    viewsAlong d.total.domain a es = viewsAlong d a es := by
  induction es generalizing a with
  | nil => rfl
  | cons e es ih =>
      cases he : a.applyEvent d e with
      | threw b => simp [Aggregate.applyEvents, he] at h
      | returned b =>
          rw [Aggregate.applyEvents_cons_of_returned he] at h
          simp only [viewsAlong, he, Aggregate.applyEvent_total he, Outcome.object, ih h]

theorem snapshotOf_total {id : Id} {sk : Int32} {evs : List (AggregateEvent Id P)}
    (h : snapshotOf d id sk evs = some a) : snapshotOf d.total.domain id sk evs = some a := by
  unfold snapshotOf at h
  split at h
  · rename_i b hb
    have hb : (Aggregate.new d.total.domain id sk).applyEvents d.total.domain evs =
        .returned b := Aggregate.applyEvents_total hb
    rw [snapshotOf, hb]
    exact h
  · cases h

theorem updateAggregate_eq_returned {stream : List (AggregateEvent Id P)}
    (h : updateAggregate d stream a = .returned a') : ¬ a.version < 0 ∧
      a.applyEvents d (orderByVersion (getEvents stream a.version.toInt.toNat)) =
        .returned a' := by
  unfold updateAggregate at h
  split at h
  · cases h
  · exact ⟨‹_›, h⟩

/-- What is read behind the snapshot of a prefix. -/
theorem getEvents_snapshot (d : TotalDomain Id S P) {id : Id} {sk : Int32}
    {stream : List (AggregateEvent Id P)} {n : Nat} (hhist : History id stream)
    (hshort : stream.length < 2 ^ 31 - 1) {a : Aggregate Id S P}
    (h : snapshotOf d.domain id sk (stream.take n) = some a) :
    getEvents stream a.version.toInt.toNat = stream.drop n := by
  rw [snapshotOf_history d sk (hhist.of_isPrefix (List.take_prefix n stream))] at h
  obtain rfl := Option.some.inj h
  have hlen := (List.take_prefix n stream).length_le
  rw [built_version, List.length_nil, Nat.add_zero, Int32.toInt_ofNat_of_lt (by omega),
    Int.toNat_natCast, getEvents_eq_drop]
  have hdrop : (stream.take n ++ stream.drop n).drop (stream.take n).length = stream.drop n :=
    List.drop_left
  rwa [List.take_append_drop] at hdrop

/-- What a step without a throw does, it does with the total domain part. -/
theorem step_total (hinv : Inv d.total w) (hshort : Short T w.store) {l : Label Id P}
    (hl : Accepting d w l) (h : step d T w l = some w') :
    step d.total.domain T w l = some w' := by
  rcases step_cases h with ⟨id, sk, rfl, rfl⟩ | ⟨id, n, sk, a, rfl, hsnap, rfl⟩ |
    ⟨id, n, m, sk, a, a', rfl, hsnap, hupdate, rfl⟩ | ⟨id, m, sk, a, rfl, happly, rfl⟩ |
    ⟨o, t, p, a, views, rfl, ho, hraise⟩ | ⟨o, a, views, rfl, ho, rfl⟩ |
    ⟨o, fault, drop, a, call, views, rfl, ho, rfl⟩
  · rfl
  · simp only [step, snapshotOf_total hsnap, Option.map_some]
  · obtain ⟨hversion, happly⟩ := updateAggregate_eq_returned hupdate
    have hsnap := snapshotOf_total hsnap
    have hpre := List.take_prefix m (w.store.aggregate id)
    have hread := getEvents_snapshot d.total ((hinv.streams id).of_isPrefix hpre)
      (Nat.lt_of_le_of_lt hpre.length_le (hshort.aggregate id)) hsnap
    have hupdate : updateAggregate d.total.domain ((w.store.aggregate id).take m) a =
        .returned a' := by
      rw [updateAggregate, if_neg hversion]
      exact Aggregate.applyEvents_total happly
    rw [hread] at happly
    simp only [step, hsnap, hupdate, Option.bind_some, viewsAlong_total happly]
  · have hnew : (Aggregate.new d.total.domain id sk).applyEvents d.total.domain
        (orderByVersion (eventsOf id ((w.store.typed T).take m))) = .returned a :=
      Aggregate.applyEvents_total happly
    have hviews := viewsAlong_total happly
    simp only [step, hnew]
    exact congrArg (fun views => some (w.addObject a views)) hviews
  · obtain ⟨a', happly⟩ := hl a views ho
    rcases hraise with ⟨b, hb, rfl⟩ | ⟨b, hb, -⟩
    · simp only [step, ho, Aggregate.applyEvent_total hb]
    · rw [happly] at hb
      cases hb
  · exact h
  · exact h

end Total

-- ============================================================================
-- Objects
-- ============================================================================

section Objects

variable {d : Domain Id S P} {T : String} {s s' : Store Id P} {a a' : Aggregate Id S P}
  {loaded : List (AggregateEvent Id P)}

omit [DecidableEq Id] in
theorem accepted_new (d : Domain Id S P) (s : Store Id P) (id : Id) (sk : Int32) :
    Accepted d s (Aggregate.new d id sk) [] := ⟨List.nil_prefix, trivial, rfl, rfl⟩

omit [DecidableEq Id] in
/-- The snapshot of a prefix. -/
theorem accepted_built {id : Id} (sk : Int32) (hseen : loaded <+: s.aggregate id)
    (haccepts : d.Accepts d.init (s.aggregate id)) :
    Accepted d s (built d.total id sk loaded []) loaded where
  seen := hseen
  accepts := by
    rw [built_changes, List.append_nil]
    exact haccepts.of_isPrefix hseen
  state := rfl
  version := built_version ..

omit [DecidableEq Id] in
theorem Accepted.mono (h : Accepted d s a loaded) (hext : Extends s s') : Accepted d s' a loaded :=
  ⟨h.seen.trans (hext.aggregate a.id), h.accepts, h.state, h.version⟩

theorem Accepted.applyEvent (h : Accepted d s a loaded) {e : AggregateEvent Id P}
    (hid : e.aggregateId = a.id) (ha : a.applyEvent d e = .returned a') :
    Accepted d s a' loaded := by
  obtain ⟨hv, -, hid', hversion, hchanges⟩ := Aggregate.applyEvent_eq_returned hid ha
  have hcall := Aggregate.callApply_of_returned hid ha
  refine ⟨?_, ?_, ?_, ?_⟩
  · rw [hid']
    exact h.seen
  · rw [hchanges, ← List.append_assoc]
    refine Domain.accepts_append.mpr ⟨h.accepts, a'.state, ?_, trivial⟩
    rw [← h.state]
    exact hcall
  · rw [hchanges, ← List.append_assoc, List.foldl_append, ← h.state]
    show a'.state = (d.callApply a.state e).object
    rw [hcall]
    rfl
  · rw [hversion, hv, h.version, hchanges, List.length_append, List.length_singleton,
      ← Nat.add_assoc, Int32.ofNat_add (_ + _)]
    rfl

theorem Accepted.applyEvents (h : Accepted d s a loaded) {es : List (AggregateEvent Id P)}
    (hown : ∀ e ∈ es, e.aggregateId = a.id) (ha : a.applyEvents d es = .returned a') :
    Accepted d s a' loaded := by
  induction es generalizing a with
  | nil =>
      cases ha
      exact h
  | cons e es ih =>
      have hid := hown e List.mem_cons_self
      cases he : a.applyEvent d e with
      | threw b => simp [Aggregate.applyEvents, he] at ha
      | returned b =>
          rw [Aggregate.applyEvents_cons_of_returned he] at ha
          obtain ⟨-, -, hid', -⟩ := Aggregate.applyEvent_eq_returned hid he
          refine ih (h.applyEvent hid he) (fun e' he' => ?_) ha
          rw [hid']
          exact hown e' (List.mem_cons_of_mem e he')

omit [DecidableEq Id] in
/-- Both invariants are about the same beginning of the stream. -/
theorem Accepted.loaded_eq (h : Accepted d s a loaded) {saving : Option (Awaiting Id P)}
    {views : List (View S)} {sk : Int32} {loaded' : List (AggregateEvent Id P)}
    (ht : Tracks d.total s ⟨a, saving, views⟩ sk loaded') (hshort : Short T s) :
    loaded = loaded' := by
  have hobj : a = built d.total a.id sk loaded' a.changes := ht.object
  have hseen : loaded' <+: s.aggregate a.id := ht.seen
  have hlen := h.seen.length_le
  have hlen' := hseen.length_le
  have hlt := hshort.aggregate a.id
  have hversion : Int32.ofNat (loaded.length + a.changes.length) =
      Int32.ofNat (loaded'.length + a.changes.length) := by
    rw [← h.version, ← built_version d.total a.id sk loaded' a.changes, ← hobj]
  have heq : loaded.length = loaded'.length := by
    rw [Int32.ofNat_add, Int32.ofNat_add] at hversion
    have hcancel : Int32.ofNat loaded.length = Int32.ofNat loaded'.length := by
      simpa using hversion
    have hint := congrArg Int32.toInt hcancel
    rw [Int32.toInt_ofNat_of_lt (by omega), Int32.toInt_ofNat_of_lt (by omega)] at hint
    omega
  exact (List.prefix_of_prefix_length_le h.seen hseen (Nat.le_of_eq heq)).eq_of_length heq

omit [DecidableEq Id] in
/-- A save that ends with its batch stored. -/
theorem Accepted.markAsCommited (h : Accepted d s a loaded)
    (hstored : loaded ++ a.changes <+: s.aggregate a.id) :
    Accepted d s a.markAsCommited (loaded ++ a.changes) where
  seen := hstored
  accepts := by
    show d.Accepts d.init (loaded ++ a.changes ++ [])
    rw [List.append_nil]
    exact h.accepts
  state := by
    show a.state = (loaded ++ a.changes ++ []).foldl d.total.apply d.init
    rw [List.append_nil]
    exact h.state
  version := by
    show a.version = Int32.ofNat ((loaded ++ a.changes).length + 0)
    rw [Nat.add_zero, List.length_append]
    exact h.version

end Objects

-- ============================================================================
-- Runs
-- ============================================================================

section Runs

variable {d : Domain Id S P} {T : String} {w w' : World Id S P} {s : Store Id P}
  {a a' : Aggregate Id S P} {call : Awaiting Id P} {next : Option (Awaiting Id P)}
  {views : List (View S)} {sk : Int32} {drop : Bool} {loaded : List (AggregateEvent Id P)}

/-- A call that takes effect leaves streams that are accepted. -/
theorem Accepted.streams (h : Accepted d w.store a loaded)
    (ht : Tracks d.total w.store ⟨a, some call, views⟩ sk loaded) (hshort : Short T w.store)
    (hstreams : ∀ id, d.Accepts d.init (w.store.aggregate id))
    (hr : resume T drop w.store a call = some (s, a', next)) (id : Id) :
    d.Accepts d.init (s.aggregate id) := by
  cases call with
  | category events =>
      cases hr
      exact hstreams id
  | aggregate events version =>
      obtain ⟨stream, hsave, rfl, rfl, rfl⟩ := resume_aggregate hr
      obtain ⟨-, -, rfl⟩ := ht.accepted hshort hsave
      by_cases hid : id = a.id
      · subst hid
        rw [Store.setAggregate_self]
        exact h.accepts
      · rw [Store.setAggregate_ne _ hid]
        exact hstreams id
  | ids =>
      obtain ⟨rfl, -⟩ := resume_ids hr
      rw [Store.appendId_aggregate]
      exact hstreams id
  | bus t events rest =>
      obtain ⟨rfl, -⟩ := resume_bus hr
      exact hstreams id

/-- A call that succeeds leaves its object a replay. -/
theorem Accepted.resume (h : Accepted d w.store a loaded)
    (ht : Tracks d.total w.store ⟨a, some call, views⟩ sk loaded)
    (hr : EventStore.resume T drop w.store a call = some (s, a', next)) :
    ∃ loaded', Accepted d s a' loaded' := by
  have h := h.mono (resume_extends hr)
  have hfits := (ht.mono (resume_extends hr)).saving call rfl
  rcases resume_agg hr with ⟨rfl, -⟩ | ⟨rfl, rfl⟩
  · exact ⟨loaded, h⟩
  · refine ⟨loaded ++ a.changes, h.markAsCommited ?_⟩
    cases call with
    | category events =>
        have hnext := congrArg (fun r => r.2.2) (Option.some.inj hr)
        cases hnext
    | aggregate events version =>
        obtain ⟨_, -, -, -, hnext⟩ := resume_aggregate hr
        cases hnext
    | ids => exact hfits
    | bus t events rest => exact hfits

omit [DecidableEq Id] in
theorem AcceptedWorld.addObject (h : AcceptedWorld d w) (ha : Accepted d w.store a loaded)
    (views : List (View S)) : AcceptedWorld d (w.addObject a views) where
  streams := h.streams
  objects := by
    intro obj hobj
    rcases List.mem_append.mp hobj with hobj | hobj
    · exact h.objects obj hobj
    · rw [List.mem_singleton.mp hobj]
      exact ⟨loaded, ha⟩

omit [DecidableEq Id] in
/-- One object changes and the store grows. -/
theorem AcceptedWorld.setObject (h : AcceptedWorld d w) {commits : List (Commit Id S P)}
    {o : Nat} {obj : Obj Id S P} (hext : Extends w.store s)
    (hstreams : ∀ id, d.Accepts d.init (s.aggregate id))
    (hobj : ∃ loaded, Accepted d s obj.agg loaded) :
    AcceptedWorld d { store := s, objects := w.objects.set o obj, commits } where
  streams := hstreams
  objects := by
    intro obj' hobj'
    rcases List.mem_or_eq_of_mem_set hobj' with hmem | rfl
    · obtain ⟨loaded, ha⟩ := h.objects obj' hmem
      exact ⟨loaded, ha.mono hext⟩
    · exact hobj

theorem AcceptedWorld.completeCall (h : AcceptedWorld d w) (hinv : Inv d.total w)
    (hshort : Short T w.store) {o : Nat} (ho : w.objects[o]? = some ⟨a, some call, views⟩)
    (fault : Fault) (drop : Bool) :
    AcceptedWorld d (w.completeCall T o ⟨a, some call, views⟩ call fault drop) := by
  obtain ⟨loaded, ha⟩ := h.objects _ (List.mem_of_getElem? ho)
  obtain ⟨sk, loaded', ht⟩ := hinv.objects _ (List.mem_of_getElem? ho)
  obtain rfl := ha.loaded_eq ht hshort
  rcases completeCall_cases T w o _ call fault drop with ⟨heq, -⟩ |
      ⟨s, a', next, hr, ⟨-, heq⟩ | ⟨-, heq⟩⟩ <;> rw [heq]
  · exact h.setObject (Extends.refl _) h.streams ⟨loaded, ha⟩
  · exact h.setObject (resume_extends hr) (ha.streams ht hshort h.streams hr)
      ⟨loaded, ha.mono (resume_extends hr)⟩
  · exact h.setObject (resume_extends hr) (ha.streams ht hshort h.streams hr) (ha.resume ht hr)

theorem AcceptedWorld.step (h : AcceptedWorld d w) (hinv : Inv d.total w)
    (hshort : Short T w.store) {l : Label Id P} (hl : Accepting d w l)
    (hstep : step d T w l = some w') : AcceptedWorld d w' := by
  rcases step_cases hstep with ⟨id, sk, -, rfl⟩ | ⟨id, n, sk, a, -, hsnap, rfl⟩ |
    ⟨id, n, m, sk, a, a', -, hsnap, hupdate, rfl⟩ | ⟨id, m, sk, a, -, happly, rfl⟩ |
    ⟨o, t, p, a, views, rfl, ho, hraise⟩ | ⟨o, a, views, -, ho, rfl⟩ |
    ⟨o, fault, drop, a, call, views, -, ho, rfl⟩
  · exact h.addObject (accepted_new d _ id sk) _
  · have hpre := List.take_prefix n (w.store.aggregate id)
    have hsnap := snapshotOf_total hsnap
    rw [snapshotOf_history d.total sk ((hinv.streams id).of_isPrefix hpre)] at hsnap
    obtain rfl := Option.some.inj hsnap
    exact h.addObject (accepted_built sk hpre (h.streams id)) _
  · have hread := List.take_prefix m (w.store.aggregate id)
    have hpre := (List.take_prefix n ((w.store.aggregate id).take m)).trans hread
    have hsnap := snapshotOf_total hsnap
    rw [snapshotOf_history d.total sk ((hinv.streams id).of_isPrefix hpre)] at hsnap
    obtain rfl := Option.some.inj hsnap
    obtain ⟨-, happly⟩ := updateAggregate_eq_returned hupdate
    refine h.addObject ((accepted_built sk hpre (h.streams id)).applyEvents ?_ happly) _
    intro e he
    rw [mem_orderByVersion, getEvents_eq_drop] at he
    exact (hinv.streams id).own e (hread.subset (List.mem_of_mem_drop he))
  · refine h.addObject ((accepted_new d w.store id sk).applyEvents ?_ happly) _
    intro e he
    rw [mem_orderByVersion] at he
    exact of_decide_eq_true (List.mem_filter.mp he).2
  · obtain ⟨loaded, ha⟩ := h.objects _ (List.mem_of_getElem? ho)
    obtain ⟨a', happly⟩ := hl a views ho
    rcases hraise with ⟨b, hb, rfl⟩ | ⟨b, hb, -⟩
    · exact h.setObject (Extends.refl _) h.streams ⟨loaded, ha.applyEvent rfl hb⟩
    · rw [happly] at hb
      cases hb
  · obtain ⟨loaded, ha⟩ := h.objects _ (List.mem_of_getElem? ho)
    exact h.setObject (Extends.refl _) h.streams ⟨loaded, ha⟩
  · exact h.completeCall hinv hshort ho fault drop

omit [DecidableEq Id] in
theorem acceptedWorld_init (d : Domain Id S P) : AcceptedWorld d (World.init : World Id S P) where
  streams _ := trivial
  objects _ hobj := absurd hobj List.not_mem_nil

end Runs

end Milde.EventStore
