/-
  Milde.EventSourcing.Recording

  An aggregate's recorded events determine it (EventSourcing/Aggregates/Aggregate.cs).

  A caller applies events to a new object and reads the uncommitted changes whenever it
  marks them as committed.  What it has read, followed by what is still uncommitted, are the
  events of the aggregate in the order of the calls (`recorded_run`), and they rebuild the
  object from any other new one (`replay_rebuilds`).  The two runs start with different
  random shard keys and agree on them from the first event on (`Rebuilt`).
-/
import Milde.EventSourcing.Rejection

namespace Milde.EventSourcing

variable {Id S P : Type}

/-- An object, and the batches of changes that were read before it was marked as
    committed. -/
structure Recording (Id S P : Type) where
  object : Aggregate Id S P
  batches : List (List (AggregateEvent Id P))

/-- A new object. -/
def Recording.start (d : Domain Id S P) (id : Id) (shardKey : Int32) : Recording Id S P :=
  ⟨Aggregate.new d id shardKey, []⟩

/-- All that was read, then what is uncommitted. -/
def Recording.recorded (r : Recording Id S P) : List (AggregateEvent Id P) :=
  r.batches.flatten ++ r.object.getUncommitedChanges

/-- A call that does not throw; `none` when it throws. -/
def recordStep [DecidableEq Id] (d : Domain Id S P) (r : Recording Id S P) :
    AggregateCall Id P → Option (Recording Id S P)
  | .applyEvent e =>
      match r.object.applyEvent d e with
      | .returned a => some { r with object := a }
      | .threw _ => none
  | .markAsCommited =>
      some ⟨r.object.markAsCommited, r.batches ++ [r.object.getUncommitedChanges]⟩

/-- The event that a call adds to the changes of an object, if any. -/
def AggregateCall.accepted [DecidableEq Id] (id : Id) :
    AggregateCall Id P → List (AggregateEvent Id P)
  | .applyEvent e => if e.aggregateId = id then [e] else []
  | .markAsCommited => []

section Steps

variable [DecidableEq Id] {d : Domain Id S P} {r r' : Recording Id S P}
  {c : AggregateCall Id P} {a a' b : Aggregate Id S P} {e : AggregateEvent Id P}

/-- What a step does: it takes in an own event, or it leaves the object and what is
    recorded as they are, up to where the changes are kept. -/
theorem recordStep_cases (h : recordStep d r c = some r') :
    (∃ e, c = .applyEvent e ∧ e.aggregateId = r.object.id ∧
      r.object.applyEvent d e = .returned r'.object ∧ r'.batches = r.batches) ∨
    (c.accepted r.object.id = [] ∧ r'.recorded = r.recorded ∧ r'.object.id = r.object.id ∧
      r'.object.view = r.object.view) := by
  cases c with
  | markAsCommited =>
      cases h
      refine Or.inr ⟨rfl, ?_, rfl, rfl⟩
      simp [Recording.recorded, Aggregate.markAsCommited, Aggregate.getUncommitedChanges]
  | applyEvent e =>
      simp only [recordStep] at h
      split at h
      · rename_i a happly
        cases h
        by_cases hid : e.aggregateId = r.object.id
        · exact Or.inl ⟨e, rfl, hid, happly, rfl⟩
        · rw [Aggregate.applyEvent_foreign (Ne.symm hid)] at happly
          cases happly
          exact Or.inr ⟨if_neg hid, rfl, rfl, rfl⟩
      · cases h

/-- A step records the event it takes in. -/
theorem recorded_step (h : recordStep d r c = some r') :
    r'.object.id = r.object.id ∧ r'.recorded = r.recorded ++ c.accepted r.object.id := by
  rcases recordStep_cases h with ⟨e, rfl, hid, happly, hbatches⟩ | ⟨hnone, hrecorded, hid, -⟩
  · obtain ⟨-, -, hid', -, hchanges⟩ := Aggregate.applyEvent_eq_returned hid happly
    refine ⟨hid', ?_⟩
    rw [AggregateCall.accepted, if_pos hid, Recording.recorded, Recording.recorded, hbatches,
      Aggregate.getUncommitedChanges, hchanges, ← List.append_assoc]
    rfl
  · rw [hnone, List.append_nil]
    exact ⟨hid, hrecorded⟩

/-- **What is recorded** are the events of the aggregate, in the order of the calls. -/
theorem recorded_run {calls : List (AggregateCall Id P)}
    (h : Transition.run (recordStep d) r calls = some r') :
    r'.recorded = r.recorded ++ calls.flatMap (AggregateCall.accepted r.object.id) := by
  induction calls generalizing r with
  | nil =>
      cases h
      rw [List.flatMap_nil, List.append_nil]
  | cons c calls ih =>
      obtain ⟨r₁, hstep, hrun⟩ := Transition.run_cons_eq_some.mp h
      obtain ⟨hid, hrecorded⟩ := recorded_step hstep
      rw [ih hrun, hid, hrecorded, List.flatMap_cons, List.append_assoc]

/-- Two objects of one aggregate take in an event alike when their shard keys agree or no
    event has come before it. -/
theorem applyEvent_alike (hid : e.aggregateId = a.id) (hid' : b.id = a.id)
    (hversion : b.version = a.version) (hstate : b.state = a.state)
    (hshard : b.shardKey = a.shardKey ∨ a.version = 0)
    (h : a.applyEvent d e = .returned a') :
    ∃ b', b.applyEvent d e = .returned b' ∧ b'.id = b.id ∧ b'.view = a'.view := by
  obtain ⟨hv, hs, s, hcall, rfl⟩ := (Aggregate.applyEvent_own_iff hid).mp h
  refine ⟨⟨b.id, e.version, e.shardKey, s, b.changes ++ [e]⟩, ?_, rfl, rfl⟩
  refine (Aggregate.applyEvent_own_iff (hid.trans hid'.symm)).mpr ⟨?_, ?_, s, ?_, rfl⟩
  · rw [hversion]
    exact hv
  · rcases hshard with hshard | hzero
    · rw [hshard]
      exact hs
    · left
      rw [hv, hzero]
      rfl
  · rw [hstate]
    exact hcall

/-- What is recorded rebuilds the object from a new one, up to the shard key as long as
    nothing is recorded. -/
def Rebuilt (d : Domain Id S P) (id : Id) (shardKey : Int32) (r : Recording Id S P) : Prop :=
  r.object.id = id ∧
    ∃ b, (Aggregate.new d id shardKey).applyEvents d r.recorded = .returned b ∧ b.id = id ∧
      b.version = r.object.version ∧ b.state = r.object.state ∧
      (b.shardKey = r.object.shardKey ∨ r.recorded = [] ∧ r.object.version = 0)

theorem rebuilt_start (d : Domain Id S P) (id : Id) (sk sk' : Int32) :
    Rebuilt d id sk' (Recording.start d id sk) :=
  ⟨rfl, Aggregate.new d id sk', rfl, rfl, rfl, rfl, Or.inr ⟨rfl, rfl⟩⟩

theorem Rebuilt.step {id : Id} {sk' : Int32} (h : Rebuilt d id sk' r)
    (hstep : recordStep d r c = some r') : Rebuilt d id sk' r' := by
  obtain ⟨hid, b, hreplay, hb_id, hversion, hstate, hshard⟩ := h
  obtain ⟨hid', hrecorded⟩ := recorded_step hstep
  refine ⟨hid'.trans hid, ?_⟩
  rcases recordStep_cases hstep with ⟨e, rfl, hown, happly, -⟩ | ⟨-, hsame, -, hview⟩
  · obtain ⟨b', happly', hb'_id, hview⟩ := applyEvent_alike hown (hb_id.trans hid.symm) hversion
      hstate (hshard.imp_right And.right) happly
    refine ⟨b', ?_, hb'_id.trans hb_id, congrArg View.version hview, congrArg View.state hview,
      Or.inl (congrArg View.shardKey hview)⟩
    rw [hrecorded, AggregateCall.accepted, if_pos hown, Aggregate.applyEvents_append hreplay,
      Aggregate.applyEvents_cons_of_returned happly', Aggregate.applyEvents_nil]
  · have hversion' : r'.object.version = r.object.version := congrArg View.version hview
    have hstate' : r'.object.state = r.object.state := congrArg View.state hview
    have hshard' : r'.object.shardKey = r.object.shardKey := congrArg View.shardKey hview
    rw [hsame, hversion', hstate', hshard']
    exact ⟨b, hreplay, hb_id, hversion, hstate, hshard⟩

/-- **Replaying what an aggregate recorded rebuilds it**, from any new object with its id. -/
theorem replay_rebuilds (d : Domain Id S P) {id : Id} {sk : Int32}
    {calls : List (AggregateCall Id P)}
    (hrun : Transition.run (recordStep d) (Recording.start d id sk) calls = some r)
    (haccepted : ∃ e, AggregateCall.applyEvent e ∈ calls ∧ e.aggregateId = id) (sk' : Int32) :
    ∃ b, (Aggregate.new d id sk').applyEvents d r.recorded = .returned b ∧
      b.view = r.object.view := by
  have hrebuilt : Rebuilt d id sk' r :=
    Transition.run_invariant (fun _ _ _ h hstep => h.step hstep) (rebuilt_start d id sk sk') hrun
  obtain ⟨-, b, hreplay, -, hversion, hstate, hshard⟩ := hrebuilt
  have hne : r.recorded ≠ [] := by
    obtain ⟨e, hmem, hid⟩ := haccepted
    have he : e ∈ r.recorded := by
      rw [recorded_run hrun]
      refine List.mem_append_right _ (List.mem_flatMap.mpr ⟨_, hmem, ?_⟩)
      show e ∈ if e.aggregateId = id then [e] else []
      rw [if_pos hid]
      exact List.mem_singleton_self e
    exact List.ne_nil_of_mem he
  have hshard := hshard.resolve_right fun h => hne h.1
  refine ⟨b, hreplay, ?_⟩
  rw [Aggregate.view, hversion, hstate, hshard]
  rfl

end Steps

section Users

open Milde.UserManagement

/-- A user is created, changed after a commit, and sent an event of another user. -/
def changedUser : List (AggregateCall Nat UserEvent) :=
  let changed : UserEvent := .ageChanged 31
  [.applyEvent (userCreated 1 41), .markAsCommited,
    .applyEvent ⟨changed.type, 8, 1, 5, changed⟩, .applyEvent ⟨changed.type, 7, 2, 41, changed⟩]

def changedUserEnd : Recording Nat UserState UserEvent :=
  (Transition.run (recordStep userDomain.domain) (Recording.start userDomain.domain 7 12)
    changedUser).getD (Recording.start userDomain.domain 7 12)

theorem replay_rebuilds_changedUser :
    Transition.run (recordStep userDomain.domain) (Recording.start userDomain.domain 7 12)
        changedUser = some changedUserEnd ∧
      changedUserEnd.object.view = ⟨2, 41, ⟨none, none, 31⟩⟩ ∧
      ∃ b, (Aggregate.new userDomain.domain 7 99).applyEvents userDomain.domain
        changedUserEnd.recorded = .returned b ∧ b.view = changedUserEnd.object.view := by
  have hrun : Transition.run (recordStep userDomain.domain)
      (Recording.start userDomain.domain 7 12) changedUser = some changedUserEnd := rfl
  exact ⟨hrun, rfl, replay_rebuilds userDomain.domain hrun
    ⟨userCreated 1 41, List.mem_cons_self, rfl⟩ 99⟩

end Users

end Milde.EventSourcing
