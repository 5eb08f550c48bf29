/-
  Milde.EventSourcing.Rejection

  What `Aggregate.ApplyEvent` leaves behind when it throws.

  There are three places where it can throw.  The version check comes first and leaves
  the object alone.  The shard key check and `CallApply` come after the version has been
  written, so an event rejected there counts as seen without being recorded
  (`rejectsUnchanged_iff`).  A caller that catches the exception and goes on with
  uncommitted changes on the object has a gap in their versions (`endsAtVersion_iff`).
-/
import Milde.UserManagement.User
import Mathlib.Algebra.Ring.Int.Defs

namespace Milde.EventSourcing

variable {Id S P : Type}

/-- A call on the object by somebody who catches what `ApplyEvent` throws. -/
inductive AggregateCall (Id P : Type) where
  | applyEvent (e : AggregateEvent Id P)
  | markAsCommited
deriving DecidableEq, Repr

/-- The object after a call, thrown or not. -/
def callStep [DecidableEq Id] (d : Domain Id S P) (a : Aggregate Id S P) :
    AggregateCall Id P → Option (Aggregate Id S P)
  | .applyEvent e => some (a.applyEvent d e).object
  | .markAsCommited => some a.markAsCommited

/-- If `ApplyEvent` throws, the version, the shard key and the changes stay. -/
def RejectsUnchanged [DecidableEq Id] (d : Domain Id S P) (a : Aggregate Id S P)
    (e : AggregateEvent Id P) : Prop :=
  ∀ a', a.applyEvent d e = .threw a' →
    a'.version = a.version ∧ a'.shardKey = a.shardKey ∧
      a'.getUncommitedChanges = a.getUncommitedChanges

/-- The uncommitted events carry consecutive versions, and the last one is `Version`. -/
def EndsAtVersion (a : Aggregate Id S P) : Prop :=
  a.getUncommitedChanges.map (fun e => e.version.toInt) =
    (List.range a.getUncommitedChanges.length).map
      fun i : Nat => a.version.toInt - a.getUncommitedChanges.length + 1 + i

instance (a : Aggregate Id S P) : Decidable (EndsAtVersion a) :=
  inferInstanceAs (Decidable (_ = _))

/-- An own event with the next version that the shard key check or `CallApply` rejects. -/
def RejectedLate (d : Domain Id S P) (a : Aggregate Id S P) (e : AggregateEvent Id P) : Prop :=
  e.aggregateId = a.id ∧ e.version = a.version + 1 ∧
    (e.version ≠ 1 ∧ e.shardKey ≠ a.shardKey ∨ ∃ s, d.callApply a.state e = .threw s)

/-- A late rejection happens only when nothing is uncommitted. -/
def LateOnlyWhenCommited (d : Domain Id S P) (a : Aggregate Id S P) :
    AggregateCall Id P → Prop
  | .applyEvent e => RejectedLate d a e → a.getUncommitedChanges = []
  | .markAsCommited => True

-- ============================================================================
-- The three ways out
-- ============================================================================

section ApplyEvent

variable [DecidableEq Id] {d : Domain Id S P} {a : Aggregate Id S P} {e : AggregateEvent Id P}

/-- `ApplyEvent` ignores the event, rejects it by its version, rejects it after the version
    has been written, or takes it in. -/
theorem applyEvent_cases (d : Domain Id S P) (a : Aggregate Id S P) (e : AggregateEvent Id P) :
    (e.aggregateId ≠ a.id ∧ a.applyEvent d e = .returned a) ∨
    (e.aggregateId = a.id ∧ e.version ≠ a.version + 1 ∧ a.applyEvent d e = .threw a) ∨
    (RejectedLate d a e ∧ ∃ a', a.applyEvent d e = .threw a' ∧
      a'.version = a.version + 1 ∧ a'.changes = a.changes) ∨
    (¬ RejectedLate d a e ∧ e.version = a.version + 1 ∧
      ∃ a', a.applyEvent d e = .returned a' ∧
        a'.version = a.version + 1 ∧ a'.changes = a.changes ++ [e]) := by
  by_cases hid : e.aggregateId = a.id
  swap
  · exact Or.inl ⟨hid, Aggregate.applyEvent_foreign (Ne.symm hid)⟩
  by_cases hv : e.version = a.version + 1
  swap
  · exact Or.inr (Or.inl ⟨hid, hv, Aggregate.applyEvent_of_version_ne hid.symm (Ne.symm hv)⟩)
  refine Or.inr (Or.inr ?_)
  have hguards : a.applyEvent d e =
      if e.version = 1 then Aggregate.record d ⟨a.id, e.version, e.shardKey, a.state, a.changes⟩ e
      else if a.shardKey ≠ e.shardKey then
        .threw ⟨a.id, e.version, a.shardKey, a.state, a.changes⟩
      else Aggregate.record d ⟨a.id, e.version, a.shardKey, a.state, a.changes⟩ e := by
    rw [Aggregate.applyEvent, if_neg (not_not_intro hid.symm), if_neg (not_not_intro hv.symm)]
  by_cases hshard : e.version ≠ 1 ∧ e.shardKey ≠ a.shardKey
  · refine Or.inl ⟨⟨hid, hv, Or.inl hshard⟩, ⟨a.id, e.version, a.shardKey, a.state, a.changes⟩,
      ?_, hv, rfl⟩
    rw [hguards, if_neg hshard.1, if_pos hshard.2.symm]
  -- the checks are passed, and what is left is `CallApply`
  have hrecord : ∃ sk, a.applyEvent d e =
      Aggregate.record d ⟨a.id, e.version, sk, a.state, a.changes⟩ e := by
    by_cases h1 : e.version = 1
    · exact ⟨e.shardKey, by rw [hguards, if_pos h1]⟩
    · have hsk : e.shardKey = a.shardKey := Decidable.of_not_not fun hne => hshard ⟨h1, hne⟩
      exact ⟨a.shardKey, by rw [hguards, if_neg h1, if_neg (not_not_intro hsk.symm)]⟩
  obtain ⟨sk, hrecord⟩ := hrecord
  cases hcall : d.callApply a.state e with
  | threw s =>
      refine Or.inl ⟨⟨hid, hv, Or.inr ⟨s, hcall⟩⟩, ⟨a.id, e.version, sk, s, a.changes⟩, ?_, hv, rfl⟩
      rw [hrecord]
      simp only [Aggregate.record, hcall]
  | returned s =>
      refine Or.inr ⟨?_, hv, ⟨a.id, e.version, sk, s, a.changes ++ [e]⟩, ?_, hv, rfl⟩
      · rintro ⟨-, -, h | ⟨s', h⟩⟩
        · exact hshard h
        · rw [hcall] at h
          cases h
      · rw [hrecord]
        simp only [Aggregate.record, hcall]

/-- The next version is another one, also where it wraps around. -/
theorem version_succ_ne (v : Int32) : v + 1 ≠ v := by
  intro h
  have h1 : (1 : Int32) = 0 := by grind
  exact absurd h1 (by decide)

/-- **A rejection that leaves the object alone** is one by the version check. -/
theorem rejectsUnchanged_iff : RejectsUnchanged d a e ↔ ¬ RejectedLate d a e := by
  rcases applyEvent_cases d a e with ⟨hid, h⟩ | ⟨hid, hv, h⟩ | ⟨hlate, a', h, hv, -⟩ |
    ⟨hlate, -, a', h, -⟩
  · refine iff_of_true (fun a' ha' => ?_) fun hlate => hid hlate.1
    rw [h] at ha'
    cases ha'
  · refine iff_of_true (fun a' ha' => ?_) fun hlate => hv hlate.2.1
    obtain rfl : a = a' := Outcome.threw.inj (h.symm.trans ha')
    exact ⟨rfl, rfl, rfl⟩
  · refine iff_of_false (fun hkept => ?_) (not_not_intro hlate)
    have hsame := (hkept a' h).1
    rw [hv] at hsame
    exact version_succ_ne a.version hsame
  · refine iff_of_true (fun a' ha' => ?_) hlate
    rw [h] at ha'
    cases ha'

end ApplyEvent

-- ============================================================================
-- Sequences of calls
-- ============================================================================

section Calls

variable [DecidableEq Id] {d : Domain Id S P} {a a' : Aggregate Id S P}

/-- The version has a successor. -/
def HasNext (a : Aggregate Id S P) : Prop := a.version.toInt + 1 < 2 ^ 31

omit [DecidableEq Id] in
theorem HasNext.toInt_succ (h : HasNext a) : (a.version + 1).toInt = a.version.toInt + 1 := by
  have hle := Int32.le_toInt a.version
  rw [Int32.toInt_add, Int32.toInt_one]
  unfold HasNext at h
  exact Int.bmod_eq_of_le (by omega) (by omega)

/-- A call moves the version on by one or not at all. -/
theorem callStep_version {c : AggregateCall Id P} (h : HasNext a)
    (hstep : callStep d a c = some a') :
    a'.version.toInt = a.version.toInt ∨ a'.version.toInt = a.version.toInt + 1 := by
  cases c with
  | markAsCommited =>
      cases hstep
      exact Or.inl rfl
  | applyEvent e =>
      obtain rfl := Option.some.inj hstep
      rcases applyEvent_cases d a e with ⟨-, happly⟩ | ⟨-, -, happly⟩ | ⟨-, b, happly, hv, -⟩ |
        ⟨-, -, b, happly, hv, -⟩ <;> rw [happly]
      · exact Or.inl rfl
      · exact Or.inl rfl
      · exact Or.inr (by rw [← h.toInt_succ, ← hv]; rfl)
      · exact Or.inr (by rw [← h.toInt_succ, ← hv]; rfl)

/-- Fewer calls than there are versions. -/
theorem along_hasNext {calls : List (AggregateCall Id P)}
    (h : a.version.toInt + calls.length < 2 ^ 31) :
    Transition.Along (callStep d) (fun a _ => HasNext a) a calls := by
  induction calls generalizing a with
  | nil => trivial
  | cons c calls ih =>
      rw [List.length_cons] at h
      have hnext : HasNext a := by
        unfold HasNext
        omega
      refine ⟨hnext, fun a' hstep => ih ?_⟩
      rcases callStep_version hnext hstep with hv | hv <;> omega

omit [DecidableEq Id] in
/-- Without changes there is nothing to be out of order. -/
theorem endsAtVersion_of_nil (h : a.changes = []) : EndsAtVersion a := by
  simp [EndsAtVersion, Aggregate.getUncommitedChanges, h]

omit [DecidableEq Id] in
/-- An accepted event ends the changes at the new version. -/
theorem EndsAtVersion.accept {e : AggregateEvent Id P} (h : EndsAtVersion a) (hnext : HasNext a)
    (he : e.version = a.version + 1) (hv : a'.version = a.version + 1)
    (hchanges : a'.changes = a.changes ++ [e]) : EndsAtVersion a' := by
  have hsucc := hnext.toInt_succ
  unfold EndsAtVersion Aggregate.getUncommitedChanges at h ⊢
  rw [hchanges, List.length_append, List.length_singleton, List.range_succ, List.map_append,
    List.map_append, h, hv, hsucc, List.map_singleton, List.map_singleton, he, hsucc]
  refine congrArg₂ (· ++ ·) (List.map_congr_left fun i _ => ?_) (congrArg (fun z => [z]) ?_)
  · push_cast
    omega
  · push_cast
    omega

omit [DecidableEq Id] in
/-- A version without an event parts the changes from `Version`. -/
theorem not_endsAtVersion_of_skipped (h : EndsAtVersion a) (hnext : HasNext a)
    (hv : a'.version = a.version + 1) (hchanges : a'.changes = a.changes)
    (hne : a.changes ≠ []) : ¬ EndsAtVersion a' := by
  intro h'
  have hsucc := hnext.toInt_succ
  unfold EndsAtVersion Aggregate.getUncommitedChanges at h h'
  rw [hchanges, hv, hsucc, h] at h'
  have hpos := List.length_pos_iff.mpr hne
  have hhead := congrArg List.head? h'
  simp only [List.head?_map, List.head?_range, Nat.ne_of_gt hpos, if_false, Option.map_some,
    Option.some.injEq] at hhead
  omega

/-- **Runs.** From a new object, in fewer calls than there are versions, the uncommitted
    events always end at `Version` iff every late rejection meets an object without
    uncommitted events. -/
theorem endsAtVersion_iff {id : Id} {sk : Int32} {calls : List (AggregateCall Id P)}
    (h : calls.length < 2 ^ 31 - 1) :
    Transition.Always (callStep d) EndsAtVersion (Aggregate.new d id sk) calls ↔
      Transition.Along (callStep d) (LateOnlyWhenCommited d) (Aggregate.new d id sk) calls := by
  have hzero : (Aggregate.new d id sk).version.toInt = 0 := rfl
  have hroom : Transition.Along (callStep d) (fun a _ => HasNext a) (Aggregate.new d id sk) calls :=
    along_hasNext (by omega)
  have htotal : ∀ (a : Aggregate Id S P) (calls : List (AggregateCall Id P)),
      ∃ a', Transition.run (callStep d) a calls = some a' := by
    intro a calls
    induction calls generalizing a with
    | nil => exact ⟨a, rfl⟩
    | cons c calls ih =>
        cases c with
        | applyEvent e => exact ih _
        | markAsCommited => exact ih _
  obtain ⟨a', hrun⟩ := htotal (Aggregate.new d id sk) calls
  refine Transition.always_iff_along (I := EndsAtVersion) (fun _ ha => ha) ?_ ?_
    (endsAtVersion_of_nil rfl) hroom hrun
  · -- a call that meets the condition keeps the changes ending at the version
    intro a c a' ha hnext hc hstep
    cases c with
    | markAsCommited =>
        cases hstep
        exact endsAtVersion_of_nil rfl
    | applyEvent e =>
        obtain rfl := Option.some.inj hstep
        rcases applyEvent_cases d a e with ⟨-, happly⟩ | ⟨-, -, happly⟩ |
          ⟨hlate, b, happly, -, hchanges⟩ | ⟨-, he, b, happly, hv, hchanges⟩ <;> rw [happly]
        · exact ha
        · exact ha
        · exact endsAtVersion_of_nil (hchanges.trans (hc hlate))
        · exact ha.accept hnext he hv hchanges
  · intro a c a' ha hnext hc hstep
    cases c with
    | markAsCommited => exact absurd trivial hc
    | applyEvent e =>
        obtain rfl := Option.some.inj hstep
        have hlate : RejectedLate d a e ∧ a.changes ≠ [] := Classical.not_imp.mp hc
        rcases applyEvent_cases d a e with ⟨hid, -⟩ | ⟨-, hv, -⟩ |
          ⟨-, b, happly, hv, hchanges⟩ | ⟨hnot, -⟩
        · exact absurd hlate.1.1 hid
        · exact absurd hlate.1.2.1 hv
        · rw [happly]
          exact not_endsAtVersion_of_skipped ha hnext hv hchanges hlate.2
        · exact absurd hlate.1 hnot

/-- **What a rejected event changes.** A single call leaves the object alone iff it does not
    reject late, and sequences of calls keep the versions of the changes in step iff they
    reject late only without uncommitted changes. -/
theorem rejected_changes_nothing_iff (d : Domain Id S P) :
    (∀ (a : Aggregate Id S P) e, RejectsUnchanged d a e ↔ ¬ RejectedLate d a e) ∧
    ∀ id sk (calls : List (AggregateCall Id P)), calls.length < 2 ^ 31 - 1 →
      (Transition.Always (callStep d) EndsAtVersion (Aggregate.new d id sk) calls ↔
        Transition.Along (callStep d) (LateOnlyWhenCommited d) (Aggregate.new d id sk) calls) :=
  ⟨fun _ _ => rejectsUnchanged_iff, fun _ _ _ h => endsAtVersion_iff h⟩

end Calls

section Users

open Milde.UserManagement

def userCreated (version shardKey : Int32) : AggregateEvent Nat UserEvent :=
  ⟨(UserEvent.created none none 30).type, 7, version, shardKey, .created none none 30⟩

/-- A user is created, is sent an event of version 3, and is marked as committed. -/
theorem rejected_changes_nothing_user :
    Transition.Always (callStep userDomain.domain) EndsAtVersion
      (Aggregate.new userDomain.domain 7 41)
      [.applyEvent (userCreated 1 41), .applyEvent (userCreated 3 41), .markAsCommited] := by
  refine ((rejected_changes_nothing_iff userDomain.domain).2 7 41 _ (by decide)).mpr ?_
  refine ⟨?_, fun a ha => ⟨?_, fun a' ha' => ⟨trivial, fun _ _ => trivial⟩⟩⟩
  · rintro ⟨-, -, ⟨h, -⟩ | ⟨s, h⟩⟩
    · exact absurd rfl h
    · cases h
  · obtain rfl := Option.some.inj ha
    rintro ⟨-, h, -⟩
    exact absurd h (by decide)

/-- The event of version 2 has a foreign shard key: `ApplyEvent` throws at version 2, with
    the event of version 1 as its only change. -/
theorem rejected_event_counts :
    (∃ a, (Aggregate.new userDomain.domain 7 41).applyEvent userDomain.domain (userCreated 1 41) =
        .returned a ∧ ¬ RejectsUnchanged userDomain.domain a (userCreated 2 5)) ∧
      ¬ Transition.Always (callStep userDomain.domain) EndsAtVersion
        (Aggregate.new userDomain.domain 7 41)
        [.applyEvent (userCreated 1 41), .applyEvent (userCreated 2 5)] := by
  refine ⟨⟨_, rfl, fun h => ?_⟩, fun h => ?_⟩
  · exact absurd (h _ rfl).1 (by decide)
  · have hend := h.last rfl
    exact absurd hend (by decide)

end Users

end Milde.EventSourcing
