/-
  Milde.EventStore.SharedObject

  One aggregate object that several callers share while one `SaveAggregate` call on it
  runs: the in-memory cache hands the same instance to everybody.

  `SaveAggregate` copies the changes at its start, but it reads the version after its
  first await, publishes what the object's list holds after its third, and clears the
  whole list at its end.  An event that arrives in between is published and cleared
  with the rest, or only cleared, without having been stored (`kept_iff_undisturbed`).
-/
import Mathlib.Algebra.Group.Int.Defs
import Milde.UserManagement.User

namespace Milde.EventStore.SharedObject

open Milde.EventSourcing

variable {Id S P : Type}

inductive Phase (Id P : Type) where
  | notStarted
  | saving (call : Awaiting Id P)
  | completed
deriving DecidableEq, Repr

def Phase.running : Phase Id P → Bool
  | .saving _ => true
  | _ => false

/-- The store, the object and its save, with the events that `ApplyEvent` has accepted
    and the events that the bus has published. -/
structure Shared (Id S P : Type) where
  store : Store Id P
  agg : Aggregate Id S P
  phase : Phase Id P
  accepted : List (AggregateEvent Id P)
  published : List (AggregateEvent Id P)

/-- A caller applies an event, `SaveAggregate` is called, or the store call it awaits
    ends. -/
inductive Label (Id P : Type) where
  | apply (e : AggregateEvent Id P)
  | save
  | complete (drop : Bool)
deriving DecidableEq, Repr

/-- What an awaited call puts on the streams of the event bus. -/
def publishes : Awaiting Id P → List (AggregateEvent Id P)
  | .bus _ events _ => events
  | _ => []

variable [DecidableEq Id]

/-- One step; `none` when the label is not enabled, `ApplyEvent` throws or the save
    fails. -/
def step (d : Domain Id S P) (T : String) (w : Shared Id S P) :
    Label Id P → Option (Shared Id S P)
  | .apply e =>
      match w.agg.applyEvent d e with
      | .returned a =>
          -- an event of another aggregate is ignored, not accepted
          some { w with
            agg := a
            accepted := if e.aggregateId = w.agg.id then w.accepted ++ [e] else w.accepted }
      | .threw _ => none
  | .save =>
      match w.phase with
      | .notStarted => some { w with phase := .saving (beginSave w.agg) }
      | _ => none
  | .complete drop =>
      match w.phase with
      | .saving call =>
          (resume T drop w.store w.agg call).map fun (store, agg, next) =>
            { w with
              store
              agg
              phase := next.elim .completed .saving
              published := w.published ++ publishes call }
      | _ => none

-- ============================================================================
-- Nothing is dropped from an undisturbed save
-- ============================================================================

/-- Every accepted event is uncommitted or stored, every published one is stored. -/
structure Kept (w : Shared Id S P) : Prop where
  accepted : ∀ e ∈ w.accepted,
    e ∈ w.agg.getUncommitedChanges ∨ e ∈ w.store.aggregate w.agg.id
  published : ∀ e ∈ w.published, e ∈ w.store.aggregate w.agg.id

/-- No event of the aggregate arrives while the save runs. -/
def Undisturbed (w : Shared Id S P) : Label Id P → Prop
  | .apply e => w.phase.running = true → e.aggregateId ≠ w.agg.id
  | _ => True

instance (w : Shared Id S P) : ∀ l, Decidable (Undisturbed w l)
  | .apply _ => inferInstanceAs (Decidable (_ → _))
  | .save => .isTrue trivial
  | .complete _ => .isTrue trivial

/-- What a save awaits carries the object's changes, or they are stored already. -/
def Carries (stream changes : List (AggregateEvent Id P)) : Awaiting Id P → Prop
  | .category events => events = changes
  | .aggregate events _ => events = changes
  | .ids => changes ⊆ stream
  | .bus _ events rest => changes ⊆ stream ∧ events ⊆ stream ∧ ∀ g ∈ rest, g.2 ⊆ stream

structure Calm (w : Shared Id S P) : Prop where
  kept : Kept w
  carries : ∀ call, w.phase = .saving call →
    Carries (w.store.aggregate w.agg.id) w.agg.changes call

section Step

variable {d : Domain Id S P} {T : String} {w w' : Shared Id S P}

/-- What a step does. -/
theorem step_cases {l : Label Id P} (h : step d T w l = some w') :
    (∃ e a, l = .apply e ∧ w.agg.applyEvent d e = .returned a ∧
      w' = { w with
        agg := a
        accepted := if e.aggregateId = w.agg.id then w.accepted ++ [e] else w.accepted }) ∨
    (l = .save ∧ w.phase = .notStarted ∧ w' = { w with phase := .saving (beginSave w.agg) }) ∨
    (∃ drop call store agg next, l = .complete drop ∧ w.phase = .saving call ∧
      resume T drop w.store w.agg call = some (store, agg, next) ∧
      w' = { w with
        store, agg
        phase := next.elim .completed .saving
        published := w.published ++ publishes call }) := by
  cases l with
  | apply e =>
      simp only [step] at h
      split at h
      · rename_i a ha
        exact Or.inl ⟨e, a, rfl, ha, (Option.some.inj h).symm⟩
      · cases h
  | save =>
      simp only [step] at h
      split at h
      · rename_i hphase
        exact Or.inr (Or.inl ⟨rfl, hphase, (Option.some.inj h).symm⟩)
      · cases h
  | complete drop =>
      simp only [step] at h
      split at h
      · rename_i call hphase
        simp only [Option.map_eq_some_iff] at h
        obtain ⟨⟨store, agg, next⟩, hr, rfl⟩ := h
        exact Or.inr (Or.inr ⟨drop, call, store, agg, next, rfl, hphase, hr, rfl⟩)
      · cases h

omit [DecidableEq Id] in
/-- The publish loop goes on, or the changes are cleared, when they are stored. -/
theorem Calm.publishNext {accepted published : List (AggregateEvent Id P)} {s : Store Id P}
    {a a' : Aggregate Id S P} {groups : List (ClrType × List (AggregateEvent Id P))}
    {next : Option (Awaiting Id P)} (hnext : publishNext a groups = (a', next))
    (haccepted : ∀ e ∈ accepted, e ∈ a.changes ∨ e ∈ s.aggregate a.id)
    (hpublished : ∀ e ∈ published, e ∈ s.aggregate a.id)
    (hchanges : a.changes ⊆ s.aggregate a.id) (hgroups : ∀ g ∈ groups, g.2 ⊆ s.aggregate a.id) :
    Calm ⟨s, a', next.elim .completed .saving, accepted, published⟩ := by
  cases groups with
  | nil =>
      cases hnext
      refine ⟨⟨fun e he => Or.inr ?_, hpublished⟩, fun call hcall => by cases hcall⟩
      rcases haccepted e he with he | he
      · exact hchanges he
      · exact he
  | cons g rest =>
      cases hnext
      refine ⟨⟨haccepted, hpublished⟩, fun call hcall => ?_⟩
      cases hcall
      exact ⟨hchanges, hgroups g List.mem_cons_self,
        fun g' hg' => hgroups g' (List.mem_cons_of_mem g hg')⟩

omit [DecidableEq Id] in
/-- A group of the changes holds nothing but changes. -/
theorem eventsByType_subset {events : List (AggregateEvent Id P)} :
    ∀ g ∈ eventsByType events, g.2 ⊆ events := by
  intro g hg e he
  exact ((group_spec (k := g.1) (g := g.2) hg).2 e he).1

theorem Calm.complete (h : Calm w) {drop : Bool} {call : Awaiting Id P} {s : Store Id P}
    {a : Aggregate Id S P} {next : Option (Awaiting Id P)} (hphase : w.phase = .saving call)
    (hr : resume T drop w.store w.agg call = some (s, a, next)) :
    Calm { w with
      store := s, agg := a
      phase := next.elim .completed .saving
      published := w.published ++ publishes call } := by
  have hcarries := h.carries call hphase
  cases call with
  | category events =>
      cases hr
      refine ⟨⟨h.kept.accepted, by simpa [publishes] using h.kept.published⟩, ?_⟩
      intro call hcall
      cases hcall
      exact hcarries
  | aggregate events version =>
      obtain ⟨stream, hsave, rfl, rfl, rfl⟩ := resume_aggregate hr
      obtain rfl := saveEvents_eq_some hsave
      have hself := Store.setAggregate_self w.store w.agg.id
        (w.store.aggregate w.agg.id ++ events)
      refine ⟨⟨fun e he => ?_, fun e he => ?_⟩, fun call hcall => ?_⟩
      · rw [hself]
        rcases h.kept.accepted e he with hold | hold
        · exact Or.inl hold
        · exact Or.inr (List.mem_append_left events hold)
      · rw [hself]
        simp only [publishes, List.append_nil] at he
        exact List.mem_append_left events (h.kept.published e he)
      · cases hcall
        obtain rfl : events = w.agg.changes := hcarries
        show w.agg.changes ⊆ _
        rw [hself]
        exact List.subset_append_right _ _
  | ids =>
      obtain ⟨rfl, hnext⟩ := resume_ids hr
      have hsame := Store.appendId_aggregate w.store drop w.agg.id
      refine Calm.publishNext hnext ?_ ?_ ?_ ?_ <;> rw [hsame]
      · exact h.kept.accepted
      · simpa [publishes] using h.kept.published
      · exact hcarries
      · exact fun g hg => List.Subset.trans (eventsByType_subset g hg) hcarries
  | bus t events rest =>
      obtain ⟨rfl, hnext⟩ := resume_bus hr
      obtain ⟨hchanges, hevents, hrest⟩ := hcarries
      refine Calm.publishNext hnext h.kept.accepted ?_ hchanges hrest
      intro e he
      rcases List.mem_append.mp he with he | he
      · exact h.kept.published e he
      · exact hevents he

/-- An undisturbed step keeps every accepted event. -/
theorem Calm.step (h : Calm w) {l : Label Id P} (hl : Undisturbed w l)
    (hstep : step d T w l = some w') : Calm w' := by
  rcases step_cases hstep with ⟨e, a, rfl, ha, rfl⟩ | ⟨rfl, hphase, rfl⟩ |
    ⟨drop, call, s, a, next, rfl, hphase, hr, rfl⟩
  · by_cases hid : e.aggregateId = w.agg.id
    · -- an accepted event joins the changes, and no save is running
      obtain ⟨-, -, ha_id, -, ha_changes⟩ := Aggregate.applyEvent_eq_returned hid ha
      rw [if_pos hid]
      refine ⟨⟨fun e' he' => ?_, ?_⟩, fun call hcall => ?_⟩
      · show e' ∈ a.changes ∨ e' ∈ w.store.aggregate a.id
        rw [ha_id, ha_changes]
        rcases List.mem_append.mp he' with he' | he'
        · exact (h.kept.accepted e' he').imp_left (List.mem_append_left _)
        · exact Or.inl (List.mem_append_right _ he')
      · show ∀ e' ∈ w.published, e' ∈ w.store.aggregate a.id
        rw [ha_id]
        exact h.kept.published
      · have hcall : w.phase = .saving call := hcall
        exact absurd hid (hl (by rw [hcall]; rfl))
    · rw [Aggregate.applyEvent_foreign (Ne.symm hid)] at ha
      cases ha
      rw [if_neg hid]
      exact ⟨h.kept, h.carries⟩
  · refine ⟨⟨h.kept.accepted, h.kept.published⟩, fun call hcall => ?_⟩
    cases hcall
    rfl
  · exact h.complete hphase hr

-- ============================================================================
-- A disturbed save drops an event
-- ============================================================================

/-- The object has seen every stored event: its version counts them and its changes,
    and none of them carries a later version. -/
structure UpToDate (w : Shared Id S P) : Prop where
  version : w.agg.version.toInt =
    (w.store.aggregate w.agg.id).length + (w.agg.changes.length : Int)
  seen : ∀ e ∈ w.store.aggregate w.agg.id ++ w.agg.changes,
    e.version.toInt ≤ w.agg.version.toInt

/-- What is left of `UpToDate` until the save ends: the count until the expected version
    is computed, the bound on the versions all along. -/
structure Aware (w : Shared Id S P) : Prop where
  version : (w.phase = .notStarted ∨ ∃ events, w.phase = .saving (.category events)) →
    w.agg.version.toInt =
      (w.store.aggregate w.agg.id).length + (w.agg.changes.length : Int)
  seen : w.phase ≠ .completed → ∀ e ∈ w.store.aggregate w.agg.id ++ w.agg.changes,
    e.version.toInt ≤ w.agg.version.toInt

/-- The save can only fail, or end with an accepted event dropped. -/
def Doomed (w : Shared Id S P) : Prop :=
  ∃ call, w.phase = .saving call ∧
    match call with
    | .category events =>
        ((w.store.aggregate w.agg.id).length + events.length : Int) < w.agg.version.toInt
    | .aggregate events version =>
        ((w.store.aggregate w.agg.id).length : Int) ≤ version ∨
          ∃ e ∈ w.accepted, e ∉ w.store.aggregate w.agg.id ++ events
    | _ => ∃ e ∈ w.accepted, e ∉ w.store.aggregate w.agg.id

/-- The versions of the run stay in the range of `int`. -/
def Room (w : Shared Id S P) (ls : List (Label Id P)) : Prop :=
  0 ≤ w.agg.version.toInt ∧ w.agg.version.toInt + ls.length < 2 ^ 31 - 1

/-- The version after an accepted event. -/
theorem Room.apply {e : AggregateEvent Id P} {a : Aggregate Id S P} {l : Label Id P}
    {ls : List (Label Id P)} (h : Room w (l :: ls)) (hid : e.aggregateId = w.agg.id)
    (ha : w.agg.applyEvent d e = .returned a) :
    e.version.toInt = w.agg.version.toInt + 1 ∧ a.version.toInt = w.agg.version.toInt + 1 := by
  obtain ⟨h0, hlt⟩ := h
  rw [List.length_cons] at hlt
  obtain ⟨hv, -, -, ha_version, -⟩ := Aggregate.applyEvent_eq_returned hid ha
  have he : e.version.toInt = w.agg.version.toInt + 1 := by
    rw [hv, Int32.toInt_add, Int32.toInt_one]
    exact Int.bmod_eq_of_le (by omega) (by omega)
  rw [ha_version]
  exact ⟨he, he⟩

theorem Room.step {l : Label Id P} {ls : List (Label Id P)} (h : Room w (l :: ls))
    (hstep : step d T w l = some w') : Room w' ls := by
  have hroom := h
  obtain ⟨h0, hlt⟩ := h
  rw [List.length_cons] at hlt
  rcases step_cases hstep with ⟨e, a, rfl, ha, rfl⟩ | ⟨rfl, -, rfl⟩ |
    ⟨drop, call, s, a, next, rfl, -, hr, rfl⟩
  · by_cases hid : e.aggregateId = w.agg.id
    · simp only [Room, (hroom.apply hid ha).2]
      omega
    · rw [Aggregate.applyEvent_foreign (Ne.symm hid)] at ha
      cases ha
      simp only [Room]
      omega
  · simp only [Room]
    omega
  · have hversion : a.version = w.agg.version := by
      rcases resume_agg hr with ⟨rfl, -⟩ | ⟨rfl, -⟩ <;> rfl
    simp only [Room, hversion]
    omega

/-- An event accepted while the save runs dooms it. -/
theorem Doomed.of_apply {e : AggregateEvent Id P} {a : Aggregate Id S P} {call : Awaiting Id P}
    {l : Label Id P} {ls : List (Label Id P)} (hcalm : Calm w) (haware : Aware w)
    (hroom : Room w (l :: ls)) (hphase : w.phase = .saving call)
    (hid : e.aggregateId = w.agg.id) (ha : w.agg.applyEvent d e = .returned a) :
    Doomed { w with agg := a, accepted := w.accepted ++ [e] } := by
  obtain ⟨-, -, ha_id, -, -⟩ := Aggregate.applyEvent_eq_returned hid ha
  obtain ⟨he, ha_version⟩ := hroom.apply hid ha
  have hcarries := hcalm.carries call hphase
  have hnew : e ∉ w.store.aggregate w.agg.id ++ w.agg.changes := by
    intro hmem
    have hle := haware.seen (by rw [hphase]; simp) e hmem
    omega
  have hmem : e ∈ w.accepted ++ [e] := by simp
  refine ⟨call, hphase, ?_⟩
  cases call with
  | category events =>
      obtain rfl : events = w.agg.changes := hcarries
      have hversion := haware.version (Or.inr ⟨_, hphase⟩)
      show ((w.store.aggregate a.id).length + _ : Int) < a.version.toInt
      rw [ha_id]
      omega
  | aggregate events version =>
      obtain rfl : events = w.agg.changes := hcarries
      refine Or.inr ⟨e, hmem, ?_⟩
      show e ∉ w.store.aggregate a.id ++ _
      rw [ha_id]
      exact hnew
  | ids =>
      refine ⟨e, hmem, ?_⟩
      show e ∉ w.store.aggregate a.id
      rw [ha_id]
      exact fun h => hnew (List.mem_append_left _ h)
  | bus t events rest =>
      refine ⟨e, hmem, ?_⟩
      show e ∉ w.store.aggregate a.id
      rw [ha_id]
      exact fun h => hnew (List.mem_append_left _ h)

omit [DecidableEq Id] in
/-- More accepted events do not help. -/
theorem Doomed.mono {a : Aggregate Id S P} {accepted : List (AggregateEvent Id P)}
    (h : Doomed w) (hid : a.id = w.agg.id) (hversion : w.agg.version.toInt ≤ a.version.toInt)
    (haccepted : w.accepted ⊆ accepted) : Doomed { w with agg := a, accepted } := by
  obtain ⟨call, hphase, h⟩ := h
  refine ⟨call, hphase, ?_⟩
  simp only [hid]
  cases call with
  | category events => exact Int.lt_of_lt_of_le h hversion
  | aggregate events version =>
      exact h.imp_right fun ⟨e, he, hnot⟩ => ⟨e, haccepted he, hnot⟩
  | ids =>
      obtain ⟨e, he, hnot⟩ := h
      exact ⟨e, haccepted he, hnot⟩
  | bus t events rest =>
      obtain ⟨e, he, hnot⟩ := h
      exact ⟨e, haccepted he, hnot⟩

omit [DecidableEq Id] in
/-- With an accepted event missing from the stream, the publish loop goes on, or the
    event is cleared. -/
theorem Doomed.publishNext {accepted published : List (AggregateEvent Id P)} {s : Store Id P}
    {a a' : Aggregate Id S P} {groups : List (ClrType × List (AggregateEvent Id P))}
    {next : Option (Awaiting Id P)} (hnext : publishNext a groups = (a', next))
    (h : ∃ e ∈ accepted, e ∉ s.aggregate a.id) :
    Doomed ⟨s, a', next.elim .completed .saving, accepted, published⟩ ∨
      (next.elim Phase.completed .saving = .completed ∧
        ¬ Kept ⟨s, a', next.elim .completed .saving, accepted, published⟩) := by
  cases groups with
  | nil =>
      cases hnext
      obtain ⟨e, he, hnot⟩ := h
      refine Or.inr ⟨rfl, fun hkept => ?_⟩
      rcases hkept.accepted e he with hmem | hmem
      · exact List.not_mem_nil hmem
      · exact hnot hmem
  | cons g rest =>
      cases hnext
      exact Or.inl ⟨_, rfl, h⟩

/-- A doomed save stays doomed until it ends, with an event dropped. -/
theorem Doomed.step {l : Label Id P} {ls : List (Label Id P)} (h : Doomed w)
    (hroom : Room w (l :: ls)) (hstep : step d T w l = some w') :
    Doomed w' ∨ (w'.phase = .completed ∧ ¬ Kept w') := by
  rcases step_cases hstep with ⟨e, a, rfl, ha, rfl⟩ | ⟨rfl, hphase, rfl⟩ |
    ⟨drop, call, s, a, next, rfl, hphase, hr, rfl⟩
  · left
    by_cases hid : e.aggregateId = w.agg.id
    · obtain ⟨-, -, ha_id, -, -⟩ := Aggregate.applyEvent_eq_returned hid ha
      rw [if_pos hid]
      exact h.mono ha_id (by rw [(hroom.apply hid ha).2]; omega) (List.subset_append_left _ _)
    · rw [Aggregate.applyEvent_foreign (Ne.symm hid)] at ha
      cases ha
      rw [if_neg hid]
      exact h
  · obtain ⟨call, hsaving, -⟩ := h
    rw [hphase] at hsaving
    cases hsaving
  · obtain ⟨call', hsaving, h⟩ := h
    obtain rfl : call = call' := by simpa [hphase] using hsaving
    cases call with
    | category events =>
        cases hr
        -- the expected version counts an event that the batch does not have
        refine Or.inl ⟨_, rfl, Or.inl ?_⟩
        obtain ⟨h0, hlt⟩ := hroom
        have hlen : ((w.store.aggregate w.agg.id).length + events.length : Int) <
          w.agg.version.toInt := h
        show ((w.store.aggregate w.agg.id).length : Int) ≤ expectedVersion w.agg events
        rw [List.length_cons] at hlt
        have hcount : (w.agg.version.toInt - events.length).bmod (2 ^ 32) =
          w.agg.version.toInt - events.length := Int.bmod_eq_of_le (by omega) (by omega)
        rw [expectedVersion, Int32.toInt_sub, Int32.toInt_sub,
          Int32.toInt_ofNat_of_lt (by omega), Int32.toInt_one, hcount,
          Int.bmod_eq_of_le (by omega) (by omega)]
        omega
    | aggregate events version =>
        obtain ⟨stream, hsave, rfl, rfl, rfl⟩ := resume_aggregate hr
        rcases h with hversion | ⟨e, he, hnot⟩
        · rw [saveEvents_of_ne_any (by simp only [ExpectedVersion.any]; omega),
            AppendLog.appendAt_eq_some] at hsave
          omega
        · obtain rfl := saveEvents_eq_some hsave
          refine Or.inl ⟨_, rfl, e, he, ?_⟩
          rw [Store.setAggregate_self]
          exact hnot
    | ids =>
        obtain ⟨rfl, hnext⟩ := resume_ids hr
        apply Doomed.publishNext hnext
        rw [Store.appendId_aggregate]
        exact h
    | bus t events rest =>
        obtain ⟨rfl, hnext⟩ := resume_bus hr
        exact Doomed.publishNext hnext h

/-- A run from a doomed state to the end of the save passes a state that has dropped an
    event. -/
theorem Doomed.not_always {ls : List (Label Id P)} (h : Doomed w) (hroom : Room w ls)
    (hrun : Transition.run (SharedObject.step d T) w ls = some w')
    (hcompleted : w'.phase = .completed) :
    ¬ Transition.Always (SharedObject.step d T) Kept w ls := by
  induction ls generalizing w with
  | nil =>
      cases hrun
      obtain ⟨call, hphase, -⟩ := h
      rw [hphase] at hcompleted
      cases hcompleted
  | cons l ls ih =>
      obtain ⟨u, hu, hrun⟩ := Transition.run_cons_eq_some.mp hrun
      intro halways
      rcases h.step hroom hu with hdoomed | ⟨-, hlost⟩
      · exact ih hdoomed (hroom.step hu) hrun (halways.2 u hu)
      · exact hlost (halways.2 u hu).head

omit [DecidableEq Id] in
theorem Aware.publishNext {accepted published : List (AggregateEvent Id P)} {s : Store Id P}
    {a a' : Aggregate Id S P} {groups : List (ClrType × List (AggregateEvent Id P))}
    {next : Option (Awaiting Id P)} (hnext : publishNext a groups = (a', next))
    (h : ∀ e ∈ s.aggregate a.id ++ a.changes, e.version.toInt ≤ a.version.toInt) :
    Aware ⟨s, a', next.elim .completed .saving, accepted, published⟩ := by
  cases groups with
  | nil =>
      cases hnext
      exact ⟨(by rintro (hp | ⟨events, hp⟩) <;> cases hp), fun hp => absurd rfl hp⟩
  | cons g rest =>
      cases hnext
      exact ⟨(by rintro (hp | ⟨events, hp⟩) <;> cases hp), fun _ => h⟩

theorem Aware.step {l : Label Id P} {ls : List (Label Id P)} (h : Aware w) (hcalm : Calm w)
    (hroom : Room w (l :: ls)) (hl : Undisturbed w l) (hstep : step d T w l = some w') :
    Aware w' := by
  rcases step_cases hstep with ⟨e, a, rfl, ha, rfl⟩ | ⟨rfl, hphase, rfl⟩ |
    ⟨drop, call, s, a, next, rfl, hphase, hr, rfl⟩
  · by_cases hid : e.aggregateId = w.agg.id
    · obtain ⟨-, -, ha_id, -, ha_changes⟩ := Aggregate.applyEvent_eq_returned hid ha
      obtain ⟨he, ha_version⟩ := hroom.apply hid ha
      refine ⟨?_, ?_⟩
      · rintro (hphase | ⟨events, hphase⟩)
        · have hversion := h.version (Or.inl hphase)
          simp only [ha_id, ha_version, ha_changes, List.length_append, List.length_singleton]
          omega
        · have hphase : w.phase = .saving _ := hphase
          exact absurd hid (hl (by rw [hphase]; rfl))
      · intro hphase e' he'
        simp only [ha_id, ha_version, ha_changes, ← List.append_assoc] at he' ⊢
        rcases List.mem_append.mp he' with he' | he'
        · have := h.seen hphase e' he'
          omega
        · rw [List.mem_singleton.mp he', he]
    · rw [Aggregate.applyEvent_foreign (Ne.symm hid)] at ha
      cases ha
      exact ⟨h.version, h.seen⟩
  · exact ⟨fun _ => h.version (Or.inl hphase), fun _ => h.seen (by rw [hphase]; simp)⟩
  · have hseen := h.seen (by rw [hphase]; simp)
    have hcarries := hcalm.carries call hphase
    cases call with
    | category events =>
        cases hr
        exact ⟨(by rintro (hp | ⟨events, hp⟩) <;> cases hp), fun _ => hseen⟩
    | aggregate events version =>
        obtain ⟨stream, hsave, rfl, rfl, rfl⟩ := resume_aggregate hr
        obtain rfl := saveEvents_eq_some hsave
        obtain rfl : events = w.agg.changes := hcarries
        refine ⟨(by rintro (hp | ⟨events, hp⟩) <;> cases hp), fun _ e he => hseen e ?_⟩
        simpa using he
    | ids =>
        obtain ⟨rfl, hnext⟩ := resume_ids hr
        apply Aware.publishNext hnext
        rw [Store.appendId_aggregate]
        exact hseen
    | bus t events rest =>
        obtain ⟨rfl, hnext⟩ := resume_bus hr
        exact Aware.publishNext hnext hseen

/-- **An event that arrives while the save runs is dropped**, when the object has seen
    every stored event and the save completes. -/
theorem undisturbed_of_kept {ls : List (Label Id P)} (hcalm : Calm w) (haware : Aware w)
    (hroom : Room w ls) (hrun : Transition.run (SharedObject.step d T) w ls = some w')
    (hcompleted : w'.phase = .completed)
    (h : Transition.Always (SharedObject.step d T) Kept w ls) :
    Transition.Along (SharedObject.step d T) Undisturbed w ls := by
  induction ls generalizing w with
  | nil => trivial
  | cons l ls ih =>
      obtain ⟨u, hu, hrun⟩ := Transition.run_cons_eq_some.mp hrun
      have hl : Undisturbed w l := by
        rcases step_cases hu with ⟨e, a, rfl, ha, rfl⟩ | ⟨rfl, -, -⟩ | ⟨_, _, _, _, _, rfl, -⟩
        · intro hrunning hid
          obtain ⟨call, hphase⟩ : ∃ call, w.phase = .saving call := by
            cases hphase : w.phase with
            | saving call => exact ⟨call, rfl⟩
            | _ => simp [hphase, Phase.running] at hrunning
          rw [if_pos hid] at hu hrun
          have hdoomed := Doomed.of_apply hcalm haware hroom hphase hid ha
          exact hdoomed.not_always (hroom.step hu) hrun hcompleted (h.2 _ hu)
        · trivial
        · trivial
      exact (Transition.along_cons hu).mpr ⟨hl,
        ih (hcalm.step hl hu) (haware.step hcalm hroom hl hu) (hroom.step hu) hrun (h.2 u hu)⟩

/-- **Nothing accepted is dropped iff nothing arrives while the save runs.** A run in
    which the object is left alone drops nothing; one in which the object has seen every
    stored event and the save completes drops nothing only then. -/
theorem kept_iff_undisturbed {ls : List (Label Id P)} (h : Kept w)
    (hphase : w.phase = .notStarted) :
    (Transition.Along (SharedObject.step d T) Undisturbed w ls →
      Transition.Always (SharedObject.step d T) Kept w ls) ∧
    (∀ w', UpToDate w → Room w ls → Transition.run (SharedObject.step d T) w ls = some w' →
      w'.phase = .completed → Transition.Always (SharedObject.step d T) Kept w ls →
        Transition.Along (SharedObject.step d T) Undisturbed w ls) := by
  have hcalm : Calm w := ⟨h, fun call hcall => by rw [hphase] at hcall; cases hcall⟩
  refine ⟨?_, ?_⟩
  · exact Transition.always_of_along (fun _ _ _ h hl hstep => h.step hl hstep)
      (fun _ h => h.kept) hcalm
  · intro w' hup hroom hrun hcompleted
    have haware : Aware w := ⟨fun _ => hup.version, fun _ => hup.seen⟩
    exact undisturbed_of_kept hcalm haware hroom hrun hcompleted

end Step

section Users

open Milde.UserManagement

/-- A new user object and an empty store. -/
def newUser : Shared Nat UserState UserEvent :=
  ⟨Store.empty, Aggregate.new userDomain.domain 7 41, .notStarted, [], []⟩

def userEvent (version : Int32) (e : UserEvent) : AggregateEvent Nat UserEvent :=
  ⟨e.type, 7, version, 41, e⟩

/-- The created user is saved and then changed. -/
theorem kept_iff_undisturbed_newUser :
    (Transition.run (step userDomain.domain "User") newUser
      ([.apply (userEvent 1 (.created none none 30)), .save] ++
        List.replicate 4 (.complete false) ++
        [.apply (userEvent 2 (.ageChanged 31))])).isSome ∧
    Transition.Always (step userDomain.domain "User") Kept newUser
      ([.apply (userEvent 1 (.created none none 30)), .save] ++
        List.replicate 4 (.complete false) ++
        [.apply (userEvent 2 (.ageChanged 31))]) := by
  have hkept : Kept newUser := ⟨by decide, by decide⟩
  exact ⟨rfl, (kept_iff_undisturbed hkept rfl).1 (by decide)⟩

/-- The age changes after the event `created` is stored and before it is published. -/
theorem kept_fails_newUser :
    ∃ w, Transition.run (step userDomain.domain "User") newUser
        ([.apply (userEvent 1 (.created none none 30)), .save,
          .complete false, .complete false, .apply (userEvent 2 (.ageChanged 31))] ++
          List.replicate 3 (.complete false)) = some w ∧
      w.phase = .completed ∧
      userEvent 2 (.ageChanged 31) ∈ w.accepted ∧
      userEvent 2 (.ageChanged 31) ∈ w.published ∧
      userEvent 2 (.ageChanged 31) ∉ w.agg.changes ∧
      userEvent 2 (.ageChanged 31) ∉ w.store.aggregate w.agg.id ∧
      ¬ Kept w := by
  refine ⟨_, rfl, rfl, by decide, by decide, by decide, by decide, fun h => ?_⟩
  exact absurd (h.published (userEvent 2 (.ageChanged 31)) (by decide)) (by decide)

end Users

end Milde.EventStore.SharedObject
