/-
  Milde.EventStore.Replay

  Which events a replay takes in (`EventStore.UpdateAggregate`,
  `InMemoryAggregateCache.Initialize`): they are sorted by version and applied one after
  the other.

  Foreign events are skipped wherever they stand (`applyEvents_ownEvents`).  The own events
  are taken in iff they carry the versions after the object's, in this order, and one shard
  key (`applyEvents_own_iff`); sorting makes the order of the list not matter
  (`ownEvents_orderByVersion_perm`).
-/
import Mathlib.Order.Monotone.Basic
import Milde.EventSourcing.Rejection

namespace Milde.EventStore

open Milde.EventSourcing

variable {Id S P : Type}

/-- The events of a list that are the aggregate's own. -/
def ownEvents [DecidableEq Id] (a : Aggregate Id S P) (events : List (AggregateEvent Id P)) :
    List (AggregateEvent Id P) :=
  events.filter fun e => e.aggregateId = a.id

/-- Events that continue an aggregate, in any order: their versions are those after the
    aggregate's, each once, and they have one shard key, which is the aggregate's own unless
    it is at version 0. -/
structure WellFormedTail (a : Aggregate Id S P) (events : List (AggregateEvent Id P)) :
    Prop where
  versions : (events.map fun e => e.version.toInt).Perm
    ((List.range' (a.version.toInt.toNat + 1) events.length).map fun n : Nat => (n : Int))
  oneShard : ∀ e ∈ events, ∀ e' ∈ events, e.shardKey = e'.shardKey
  ownShard : 0 < a.version.toInt → ∀ e ∈ events, e.shardKey = a.shardKey

/-- The versions after the aggregate's, in their order. -/
abbrev Follows (a : Aggregate Id S P) (events : List (AggregateEvent Id P)) : Prop :=
  Numbered (fun e : AggregateEvent Id P => e.version.toInt) (fun n : Nat => (n : Int))
    (a.version.toInt.toNat + 1) events

/-- The object after an own event that it has taken in. -/
def taken (d : TotalDomain Id S P) (a : Aggregate Id S P) (e : AggregateEvent Id P) :
    Aggregate Id S P :=
  ⟨a.id, e.version, e.shardKey, d.apply a.state e, a.changes ++ [e]⟩

-- ============================================================================
-- Own events
-- ============================================================================

section Own

variable [DecidableEq Id] {a a' : Aggregate Id S P} {events events' : List (AggregateEvent Id P)}

/-- Foreign events are skipped. -/
theorem applyEvents_ownEvents (d : Domain Id S P) :
    a.applyEvents d events = a.applyEvents d (ownEvents a events) := by
  induction events generalizing a with
  | nil => rfl
  | cons e events ih =>
      by_cases hid : e.aggregateId = a.id
      · have hown : ownEvents a (e :: events) = e :: ownEvents a events :=
          List.filter_cons_of_pos (decide_eq_true hid)
        rw [hown]
        cases he : a.applyEvent d e with
        | threw b => simp only [Aggregate.applyEvents, he]
        | returned b =>
            obtain ⟨-, -, hb, -⟩ := Aggregate.applyEvent_eq_returned hid he
            rw [Aggregate.applyEvents_cons_of_returned he,
              Aggregate.applyEvents_cons_of_returned he, ih, ownEvents, hb]
            rfl
      · have hforeign : ownEvents a (e :: events) = ownEvents a events :=
          List.filter_cons_of_neg (by simpa using hid)
        rw [hforeign,
          Aggregate.applyEvents_cons_of_returned (Aggregate.applyEvent_foreign (Ne.symm hid)), ih]

theorem mem_ownEvents {e : AggregateEvent Id P} :
    e ∈ ownEvents a events ↔ e ∈ events ∧ e.aggregateId = a.id := by
  rw [ownEvents, List.mem_filter, decide_eq_true_eq]

/-- One event of a replay, by the numbers. -/
theorem applyEvent_own_total_iff (d : TotalDomain Id S P) {e : AggregateEvent Id P}
    (hid : e.aggregateId = a.id) (hk : 0 ≤ a.version.toInt) (hnext : HasNext a) :
    a.applyEvent d.domain e = .returned a' ↔
      e.version.toInt = a.version.toInt + 1 ∧
        (0 < a.version.toInt → e.shardKey = a.shardKey) ∧
        a' = taken d a e := by
  rw [Aggregate.applyEvent_own_iff hid, ← hnext.toInt_succ, Int32.toInt_inj]
  refine and_congr_right fun hv => and_congr ?_ ?_
  · have hone : e.version = 1 ↔ a.version.toInt = 0 := by
      rw [hv, ← Int32.toInt_inj, hnext.toInt_succ, Int32.toInt_one]
      omega
    rw [hone]
    refine ⟨fun h hpos => h.resolve_left (by omega), fun h => ?_⟩
    rcases Int.lt_or_eq_of_le hk with hpos | hzero
    · exact Or.inr (h hpos)
    · exact Or.inl hzero.symm
  · refine ⟨?_, fun h => ⟨_, rfl, h⟩⟩
    rintro ⟨s, hs, rfl⟩
    obtain rfl : d.apply a.state e = s := Outcome.returned.inj hs
    rfl

/-- What a replay of own events leaves. -/
theorem applyEvents_own_returned (d : TotalDomain Id S P)
    (hown : ∀ e ∈ events, e.aggregateId = a.id) (hk : 0 ≤ a.version.toInt)
    (hlen : a.version.toInt + events.length < 2 ^ 31)
    (h : a.applyEvents d.domain events = .returned a') :
    a'.version.toInt = a.version.toInt + events.length ∧
      a'.state = events.foldl d.apply a.state := by
  induction events generalizing a with
  | nil =>
      cases h
      exact ⟨(Int.add_zero _).symm, rfl⟩
  | cons e events ih =>
      obtain ⟨hid, hown⟩ := List.forall_mem_cons.mp hown
      rw [List.length_cons] at hlen ⊢
      have hnext : HasNext a := by
        unfold HasNext
        omega
      cases he : a.applyEvent d.domain e with
      | threw b => simp [Aggregate.applyEvents, he] at h
      | returned b =>
          rw [Aggregate.applyEvents_cons_of_returned he] at h
          obtain ⟨hv, -, rfl⟩ := (applyEvent_own_total_iff d hid hk hnext).mp he
          have hv : (taken d a e).version.toInt = a.version.toInt + 1 := hv
          obtain ⟨hversion, hstate⟩ := ih (a := taken d a e) hown (by omega) (by omega) h
          exact ⟨by omega, hstate⟩

/-- **Own events are taken in** iff their versions follow the aggregate's in this order and
    their shard keys agree. -/
theorem applyEvents_own_iff (d : TotalDomain Id S P)
    (hown : ∀ e ∈ events, e.aggregateId = a.id) (hk : 0 ≤ a.version.toInt)
    (hlen : a.version.toInt + events.length < 2 ^ 31) :
    (∃ a', a.applyEvents d.domain events = .returned a') ↔
      Follows a events ∧ (∀ e ∈ events, ∀ e' ∈ events, e.shardKey = e'.shardKey) ∧
        (0 < a.version.toInt → ∀ e ∈ events, e.shardKey = a.shardKey) := by
  induction events generalizing a with
  | nil => exact iff_of_true ⟨a, rfl⟩ ⟨Numbered.nil, by simp, by simp⟩
  | cons e events ih =>
      obtain ⟨hid, hown⟩ := List.forall_mem_cons.mp hown
      rw [List.length_cons] at hlen
      have hnext : HasNext a := by
        unfold HasNext
        omega
      have hstart : ((a.version.toInt.toNat + 1 : Nat) : Int) = a.version.toInt + 1 := by omega
      -- the rest of the replay, from the object after the event
      have htail : ∀ b : Aggregate Id S P, b.id = a.id →
          b.version.toInt = a.version.toInt + 1 → b.shardKey = e.shardKey →
          ((∃ a', b.applyEvents d.domain events = .returned a') ↔
            Numbered (fun e : AggregateEvent Id P => e.version.toInt) (fun n : Nat => (n : Int))
              (a.version.toInt.toNat + 1 + 1) events ∧
            ∀ e' ∈ events, e'.shardKey = e.shardKey) := by
        intro b hb_id hb hshard
        have hnat : b.version.toInt.toNat = a.version.toInt.toNat + 1 := by omega
        rw [ih (fun e' he' => (hown e' he').trans hb_id.symm) (by omega) (by omega), Follows,
          hnat, hshard]
        refine and_congr_right fun _ => ⟨fun h => h.2 (by omega), fun h => ⟨?_, fun _ => h⟩⟩
        exact fun e₁ he₁ e₂ he₂ => (h e₁ he₁).trans (h e₂ he₂).symm
      refine ⟨?_, ?_⟩
      · rintro ⟨a', ha'⟩
        cases he : a.applyEvent d.domain e with
        | threw b => simp [Aggregate.applyEvents, he] at ha'
        | returned b =>
            rw [Aggregate.applyEvents_cons_of_returned he] at ha'
            obtain ⟨hv, hs, rfl⟩ := (applyEvent_own_total_iff d hid hk hnext).mp he
            obtain ⟨hnumbered, hsame⟩ := (htail (taken d a e) rfl hv rfl).mp ⟨a', ha'⟩
            have hall : ∀ e' ∈ e :: events, e'.shardKey = e.shardKey :=
              List.forall_mem_cons.mpr ⟨rfl, hsame⟩
            refine ⟨Numbered.cons_iff.mpr ⟨hv.trans hstart.symm, hnumbered⟩, ?_, ?_⟩
            · exact fun e₁ he₁ e₂ he₂ => (hall e₁ he₁).trans (hall e₂ he₂).symm
            · exact fun hpos e' he' => (hall e' he').trans (hs hpos)
      · rintro ⟨hfollows, hone, hsame⟩
        obtain ⟨hv, hnumbered⟩ := Numbered.cons_iff.mp hfollows
        have hv : e.version.toInt = a.version.toInt + 1 := Eq.trans hv hstart
        have he : a.applyEvent d.domain e = .returned (taken d a e) :=
          (applyEvent_own_total_iff d hid hk hnext).mpr
            ⟨hv, fun hpos => hsame hpos e List.mem_cons_self, rfl⟩
        obtain ⟨a', ha'⟩ := (htail (taken d a e) rfl hv rfl).mpr ⟨hnumbered, fun e' he' =>
          hone e' (List.mem_cons_of_mem e he') e List.mem_cons_self⟩
        exact ⟨a', (Aggregate.applyEvents_cons_of_returned he events).trans ha'⟩

-- ============================================================================
-- Sorting
-- ============================================================================

omit [DecidableEq Id] in
theorem orderByVersion_perm (events : List (AggregateEvent Id P)) :
    (orderByVersion events).Perm events := List.mergeSort_perm events _

/-- The own events as the replay meets them. -/
theorem ownEvents_orderByVersion_perm :
    (ownEvents a (orderByVersion events)).Perm (ownEvents a events) :=
  (orderByVersion_perm events).filter _

omit [DecidableEq Id] in
theorem pairwise_orderByVersion (events : List (AggregateEvent Id P)) :
    (orderByVersion events).Pairwise fun e e' => e.version.toInt ≤ e'.version.toInt := by
  let le (e e' : AggregateEvent Id P) : Bool := decide (e.version ≤ e'.version)
  have hle : ∀ e e', le e e' = true ↔ e.version.toInt ≤ e'.version.toInt := fun e e' =>
    decide_eq_true_iff.trans Int32.le_iff_toInt_le
  have htrans : ∀ e₁ e₂ e₃, le e₁ e₂ = true → le e₂ e₃ = true → le e₁ e₃ = true := by
    intro e₁ e₂ e₃ h₁ h₂
    rw [hle] at h₁ h₂ ⊢
    exact h₁.trans h₂
  have htotal : ∀ e e', (le e e' || le e' e) = true := by
    intro e e'
    rw [Bool.or_eq_true, hle, hle]
    exact Int.le_total _ _
  exact (List.pairwise_mergeSort htrans htotal events).imp fun h => (hle _ _).mp h

omit [DecidableEq Id] in
/-- Sorted events follow the aggregate iff their versions, in any order, are the next ones. -/
theorem follows_iff_perm {sorted : List (AggregateEvent Id P)}
    (hsorted : sorted.Pairwise fun e e' => e.version.toInt ≤ e'.version.toInt)
    (hperm : sorted.Perm events) :
    Follows a sorted ↔ (events.map fun e => e.version.toInt).Perm
      ((List.range' (a.version.toInt.toNat + 1) events.length).map fun n : Nat => (n : Int)) := by
  rw [Follows, Numbered.iff_perm (fun _ _ hlt => Int.ofNat_lt.mpr hlt) hsorted, hperm.length_eq]
  exact ⟨(hperm.map _).symm.trans, (hperm.map _).trans⟩

theorem pairwise_ownEvents_orderByVersion :
    (ownEvents a (orderByVersion events)).Pairwise fun e e' =>
      e.version.toInt ≤ e'.version.toInt :=
  (pairwise_orderByVersion events).sublist List.filter_sublist

/-- The own events are met in one order, whatever the order of the list. -/
theorem ownEvents_orderByVersion_eq (h : WellFormedTail a (ownEvents a events))
    (hperm : events'.Perm events) :
    ownEvents a (orderByVersion events') = orderByVersion (ownEvents a events) := by
  have hperm₁ : (ownEvents a (orderByVersion events')).Perm (ownEvents a events) :=
    ownEvents_orderByVersion_perm.trans (hperm.filter _)
  have hperm₂ := orderByVersion_perm (ownEvents a events)
  exact Numbered.eq_of_perm (fun _ _ hlt => Int.ofNat_lt.mpr hlt)
    ((follows_iff_perm (a := a) pairwise_ownEvents_orderByVersion hperm₁).mpr h.versions)
    ((follows_iff_perm (pairwise_orderByVersion _) hperm₂).mpr h.versions)
    (hperm₁.trans hperm₂.symm)

/-- The own events, as a replay meets them, are own and no more than all events. -/
theorem ownEvents_orderByVersion_spec (a : Aggregate Id S P)
    (events : List (AggregateEvent Id P)) :
    (∀ e ∈ ownEvents a (orderByVersion events), e.aggregateId = a.id) ∧
      (ownEvents a (orderByVersion events)).length ≤ events.length := by
  refine ⟨fun e he => (mem_ownEvents.mp he).2, ?_⟩
  rw [ownEvents_orderByVersion_perm.length_eq]
  exact List.length_filter_le _ _

/-- A replay goes through iff the own events are a well-formed tail. -/
theorem applyEvents_orderByVersion_iff (d : TotalDomain Id S P) (hk : 0 ≤ a.version.toInt)
    (hlen : a.version.toInt + events.length < 2 ^ 31) :
    (∃ a', a.applyEvents d.domain (orderByVersion events) = .returned a') ↔
      WellFormedTail a (ownEvents a events) := by
  have hperm : (ownEvents a (orderByVersion events)).Perm (ownEvents a events) :=
    ownEvents_orderByVersion_perm
  obtain ⟨hown, hlength⟩ := ownEvents_orderByVersion_spec a events
  rw [applyEvents_ownEvents, applyEvents_own_iff d hown hk (by omega),
    follows_iff_perm pairwise_ownEvents_orderByVersion hperm]
  simp only [hperm.mem_iff]
  exact ⟨fun h => ⟨h.1, h.2.1, h.2.2⟩, fun h => ⟨h.versions, h.oneShard, h.ownShard⟩⟩

/-- `UpdateAggregate` goes through iff what it reads holds a well-formed tail. -/
theorem updateAggregate_returned_iff (d : TotalDomain Id S P) (hk : 0 ≤ a.version.toInt)
    (hlen : a.version.toInt + (events.drop a.version.toInt.toNat).length < 2 ^ 31) :
    (∃ a', updateAggregate d.domain events a = .returned a') ↔
      WellFormedTail a (ownEvents a (events.drop a.version.toInt.toNat)) := by
  have hnn : ¬ a.version < 0 := by
    rw [Int32.lt_iff_toInt_lt, Int32.toInt_zero]
    omega
  rw [updateAggregate, if_neg hnn, getEvents_eq_drop]
  exact applyEvents_orderByVersion_iff d hk hlen

/-- **Replay accepts exactly the well-formed tails**, in any order, and leaves the fold of
    the own events in version order. -/
theorem replay_iff (d : TotalDomain Id S P) (hk : 0 ≤ a.version.toInt)
    (hlen : a.version.toInt + events.length < 2 ^ 31 - 1) :
    ((∃ a', a.applyEvents d.domain (orderByVersion events) = .returned a') ↔
      WellFormedTail a (ownEvents a events)) ∧
    (WellFormedTail a (ownEvents a events) →
      ∃ a', (∀ events', events'.Perm events →
          a.applyEvents d.domain (orderByVersion events') = .returned a') ∧
        a'.version.toInt = a.version.toInt + (ownEvents a events).length ∧
        a'.state = (orderByVersion (ownEvents a events)).foldl d.apply a.state) := by
  have haccepts : (∃ a', a.applyEvents d.domain (orderByVersion events) = .returned a') ↔
      WellFormedTail a (ownEvents a events) :=
    applyEvents_orderByVersion_iff d hk (by omega)
  refine ⟨haccepts, fun h => ?_⟩
  obtain ⟨hown, hlength⟩ := ownEvents_orderByVersion_spec a events
  obtain ⟨a', ha'⟩ := haccepts.mpr h
  rw [applyEvents_ownEvents] at ha'
  obtain ⟨hversion, hstate⟩ := applyEvents_own_returned d hown hk (by omega) ha'
  refine ⟨a', fun events' hevents' => ?_, ?_, ?_⟩
  · rw [applyEvents_ownEvents, ownEvents_orderByVersion_eq h hevents',
      ← ownEvents_orderByVersion_eq h (List.Perm.refl events)]
    exact ha'
  · rw [hversion, ownEvents_orderByVersion_perm.length_eq]
  · rw [hstate, ownEvents_orderByVersion_eq h (List.Perm.refl events)]

end Own

section Users

open Milde.UserManagement

def ageChanged (id : Nat) (version shardKey age : Int32) : AggregateEvent Nat UserEvent :=
  ⟨(UserEvent.ageChanged age).type, id, version, shardKey, .ageChanged age⟩

/-- Two changes of a user, the later one first, and one of another user between them. -/
def shuffledChanges : List (AggregateEvent Nat UserEvent) :=
  [ageChanged 7 3 41 32, ageChanged 8 5 2 9, ageChanged 7 2 41 31]

/-- A user at version 1. -/
def loadedUser : User Nat := ⟨7, 1, 41, ⟨none, none, 30⟩, []⟩

theorem replay_iff_shuffledChanges :
    ∃ u : User Nat, (∀ events', events'.Perm shuffledChanges →
        loadedUser.applyEvents userDomain.domain (orderByVersion events') = .returned u) ∧
      u.version.toInt = 3 ∧ u.state = ⟨none, none, 32⟩ := by
  have htail : WellFormedTail loadedUser (ownEvents loadedUser shuffledChanges) :=
    ⟨by decide, by decide, by decide⟩
  obtain ⟨u, hreplay, hversion, -⟩ :=
    (replay_iff userDomain (by decide) (by decide)).2 htail
  refine ⟨u, hreplay, hversion, ?_⟩
  have hsorted := hreplay [ageChanged 7 2 41 31, ageChanged 7 3 41 32, ageChanged 8 5 2 9]
    (by decide)
  rw [orderByVersion, List.mergeSort_of_pairwise (by decide)] at hsorted
  obtain rfl := Outcome.returned.inj hsorted
  rfl

end Users

end Milde.EventStore
