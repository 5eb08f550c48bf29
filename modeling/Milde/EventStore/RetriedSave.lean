/-
  Milde.EventStore.RetriedSave

  A `SaveAggregate` call that threw, and a second one on the same object.

  The object keeps its changes until the last statement of `SaveAggregate`, so a second
  call starts with the same batch and the same expected version.  It converts the events
  again, with fresh event ids, so the server takes what it already has for new: after the
  append to `T` the second call puts the batch there once more, and after the one to
  `T-{id}` it is refused.  Only when nothing has been written does a retry do what one
  undisturbed call does (`retries_iff`).
-/
import Milde.EventStore.SequentialRuns

namespace Milde.EventStore

open Milde.EventSourcing

variable {Id S P : Type}

/-- The store calls that a save of `changes` makes, in their order. -/
def stages (changes : List (AggregateEvent Id P)) : List SaveCall :=
  .category :: .aggregate :: .ids :: (eventsByType changes).map fun g => .bus g.1

/-- The call that throws without taking effect. -/
def failsAt (stage : SaveCall) : SaveCall → Bool := fun call => decide (call = stage)

/-- The stored stream matches the version before the uncommitted changes. -/
def Matches (store : Store Id P) (a : Aggregate Id S P) : Prop :=
  a.version.toInt = (store.aggregate a.id).length + (a.getUncommitedChanges.length : Int)

instance (store : Store Id P) (a : Aggregate Id S P) : Decidable (Matches store a) :=
  inferInstanceAs (Decidable (_ = _))

/-- After a save that threw at `stage`, a second one succeeds, empties the changes and
    leaves the streams that one undisturbed save leaves. -/
def Retries [DecidableEq Id] (T : String) (store : Store Id P) (a : Aggregate Id S P)
    (stage : SaveCall) : Prop :=
  ∀ drop drop' drop₀ s₁ a₁, saveAggregate T drop (failsAt stage) store a = .threw (s₁, a₁) →
    ∃ s₂ a₂ s₀ a₀, saveAggregate T drop' noFailure s₁ a₁ = .returned (s₂, a₂) ∧
      a₂.getUncommitedChanges = [] ∧
      saveAggregate T drop₀ noFailure store a = .returned (s₀, a₀) ∧
      s₂.typed = s₀.typed ∧ s₂.aggregate = s₀.aggregate

-- ============================================================================
-- The two saves
-- ============================================================================

section Saves

variable {T : String} {store : Store Id P} {a : Aggregate Id S P}

/-- The expected version is the number of the last stored event. -/
theorem Matches.expects (h : Matches store a) :
    expectedVersion a a.changes = ((store.aggregate a.id).length : Int) - 1 := by
  have h : a.version.toInt = (store.aggregate a.id).length + (a.changes.length : Int) := h
  rw [expectedVersion_eq (by omega)]
  omega

theorem Matches.accepted (h : Matches store a) :
    saveEvents (store.aggregate a.id) a.changes (expectedVersion a a.changes) =
      some (store.aggregate a.id ++ a.changes) := by
  rw [h.expects, saveEvents_of_ne_any (by simp only [ExpectedVersion.any]; omega)]
  exact AppendLog.appendAt_self _ _

/-- Once the batch is stored, the same expected version is too low. -/
theorem Matches.refused (h : Matches store a) (hne : a.changes ≠ []) :
    saveEvents (store.aggregate a.id ++ a.changes) a.changes (expectedVersion a a.changes) =
      none := by
  have hpos := List.length_pos_iff.mpr hne
  rw [h.expects, saveEvents_of_ne_any (by simp only [ExpectedVersion.any]; omega)]
  exact AppendLog.appendAt_of_stale (by rw [List.length_append]; omega)

theorem not_lateFailure_noFailure (changes : List (AggregateEvent Id P)) :
    ¬ LateFailure noFailure changes := by
  rintro (h | ⟨_, _, h⟩) <;> cases h

variable [DecidableEq Id]

/-- A save with the store healthy. -/
theorem Matches.saves (h : Matches store a) (drop : Bool) :
    ∃ s, saveAggregate T drop noFailure store a = .returned (s, a.markAsCommited) := by
  rcases saveAggregate_cases noFailure T drop store a with ⟨s, -, -, hfail | hfail | hfail⟩ |
    ⟨s, -, -, -, -, ⟨-, hlate⟩ | ⟨hsave, -⟩⟩
  · cases hfail
  · cases hfail
  · rw [h.accepted] at hfail
    cases hfail
  · exact absurd hlate (not_lateFailure_noFailure _)
  · exact ⟨s, hsave⟩

/-- Saves that return leave the same events, whatever `T-Ids` drops. -/
theorem saveAggregate_returned_agree {drop drop' : Bool} {fails fails' : SaveCall → Bool}
    {s s' : Store Id P} {a₁ a₂ : Aggregate Id S P}
    (h : saveAggregate T drop fails store a = .returned (s, a₁))
    (h' : saveAggregate T drop' fails' store a = .returned (s', a₂)) :
    s.typed = s'.typed ∧ s.aggregate = s'.aggregate := by
  obtain ⟨-, hagg, -, htyped⟩ := saveAggregate_returned h
  obtain ⟨-, hagg', -, htyped'⟩ := saveAggregate_returned h'
  refine ⟨funext fun name => ?_, hagg.trans hagg'.symm⟩
  rw [htyped, htyped']

/-- The save that throws at one of its stages: nothing is written, or the batch is in `T`
    only, or it is in both streams. -/
theorem Matches.failsAt (h : Matches store a) {stage : SaveCall} (hstage : stage ∈ stages a.changes)
    (drop : Bool) :
    (stage = .category ∧
      saveAggregate T drop (failsAt stage) store a = .threw (store, a)) ∨
    (stage = .aggregate ∧ saveAggregate T drop (EventStore.failsAt stage) store a =
      .threw (store.appendTyped T a.changes, a)) ∨
    (stage ≠ .category ∧ stage ≠ .aggregate ∧
      ∃ s, saveAggregate T drop (EventStore.failsAt stage) store a = .threw (s, a) ∧
        s.aggregate a.id = store.aggregate a.id ++ a.changes) := by
  by_cases hcategory : stage = .category
  · subst hcategory
    exact Or.inl ⟨rfl, by simp [saveAggregate, EventStore.failsAt]⟩
  by_cases haggregate : stage = .aggregate
  · subst haggregate
    refine Or.inr (Or.inl ⟨rfl, ?_⟩)
    simp [saveAggregate, EventStore.failsAt, Aggregate.getUncommitedChanges]
  refine Or.inr (Or.inr ⟨hcategory, haggregate, ?_⟩)
  have hlate : LateFailure (EventStore.failsAt stage) a.changes := by
    simp only [stages, List.mem_cons, hcategory, haggregate, false_or, List.mem_map] at hstage
    rcases hstage with rfl | ⟨g, hg, rfl⟩
    · exact Or.inl (by simp [EventStore.failsAt])
    · exact Or.inr ⟨g, hg, by simp [EventStore.failsAt]⟩
  rcases saveAggregate_cases (EventStore.failsAt stage) T drop store a with
    ⟨s, -, -, hfail | hfail | hfail⟩ | ⟨s, -, -, -, hagg, ⟨hsave, -⟩ | ⟨-, hnot⟩⟩
  · exact absurd (of_decide_eq_true hfail).symm hcategory
  · exact absurd (of_decide_eq_true hfail).symm haggregate
  · rw [h.accepted] at hfail
    cases hfail
  · exact ⟨s, hsave, by rw [hagg, Function.update_self]⟩
  · exact absurd hlate hnot

/-- **Retries.** A save that failed can be retried iff it failed before anything was
    written. -/
theorem retries_iff (h : Matches store a) (hne : a.getUncommitedChanges ≠ []) {stage : SaveCall}
    (hstage : stage ∈ stages a.getUncommitedChanges) :
    Retries T store a stage ↔ stage = .category := by
  refine ⟨fun hretry => ?_, ?_⟩
  · rcases h.failsAt (T := T) hstage false with ⟨hcategory, -⟩ | ⟨haggregate, hthrew⟩ |
      ⟨-, -, s, hthrew, hstored⟩
    · exact hcategory
    · -- `T` gets the batch a second time
      obtain ⟨s₂, a₂, s₀, a₀, hsecond, -, hfirst, htyped, -⟩ :=
        hretry false false false _ _ hthrew
      obtain ⟨-, -, -, htyped₂⟩ := saveAggregate_returned hsecond
      obtain ⟨-, -, -, htyped₀⟩ := saveAggregate_returned hfirst
      have hlength := congrArg List.length (congrFun htyped T)
      rw [htyped₂, htyped₀] at hlength
      simp only [Store.appendTyped_typed_self, List.length_append] at hlength
      have hpos : 0 < a.changes.length := List.length_pos_iff.mpr hne
      omega
    · -- the batch is stored, so its expected version is refused
      obtain ⟨s₂, a₂, -, -, hsecond, -⟩ := hretry false false false _ _ hthrew
      have hrefused := h.refused hne
      rw [← hstored] at hrefused
      rcases saveAggregate_cases noFailure T false s a with ⟨_, hsave, -⟩ | ⟨_, -, -, hsave, -⟩
      · rw [hsave] at hsecond
        cases hsecond
      · rw [hrefused] at hsave
        cases hsave
  · rintro rfl drop drop' drop₀ s₁ a₁ hthrew
    obtain ⟨s₀, hfirst⟩ := h.saves (T := T) drop₀
    obtain ⟨s₂, hsecond⟩ := h.saves (T := T) drop'
    obtain ⟨htyped, hagg⟩ := saveAggregate_returned_agree hsecond hfirst
    have hsame : saveAggregate T drop (EventStore.failsAt .category) store a =
        .threw (store, a) := by
      simp [saveAggregate, EventStore.failsAt]
    obtain ⟨rfl, rfl⟩ : store = s₁ ∧ a = a₁ := by
      simpa using hsame.symm.trans hthrew
    exact ⟨s₂, _, s₀, _, hsecond, rfl, hfirst, htyped, hagg⟩

end Saves

section Users

open Milde.UserManagement

/-- A new user with one uncommitted event, before the first save. -/
def createdUser : User Nat :=
  (User.create 7 41 (some "a") none 30).object

theorem retries_createdUser : Retries "User" Store.empty createdUser .category :=
  (retries_iff (T := "User") (by decide) (by decide) (by decide)).mpr rfl

/-- The call on `T-Ids` throws: the stored batch makes the retry fail, and every retry
    after it. -/
theorem retry_fails_createdUser :
    Matches (Store.empty : Store Nat UserEvent) createdUser ∧
      createdUser.getUncommitedChanges ≠ [] ∧
      SaveCall.ids ∈ stages createdUser.getUncommitedChanges ∧
      ¬ Retries "User" Store.empty createdUser .ids := by
  refine ⟨by decide, by decide, by decide, fun h => ?_⟩
  obtain ⟨s₂, a₂, -, -, hsecond, -⟩ := h false false false _ _ rfl
  cases hsecond

end Users

end Milde.EventStore
