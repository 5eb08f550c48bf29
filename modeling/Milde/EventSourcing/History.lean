/-
  Milde.EventSourcing.History

  Well-formed event histories and what replaying them yields.

  `History id evs` says what a healthy `T-id` stream looks like: every event belongs
  to `id`, the versions are 1, 2, 3, … (as `int`s) and there is one shard key.
  `built` is the closed form of an aggregate object: the events it was loaded from
  plus its uncommitted changes determine version, shard key and domain state.
  `applyEvents_built` connects the two: replaying the next events of a history never
  throws and moves a built object to a built object.
-/
import Mathlib.Algebra.Group.Nat.Defs
import Milde.Common.Numbered
import Milde.EventSourcing.Aggregate

namespace Milde.EventSourcing

variable {Id S P : Type}

/-- A well-formed history of the aggregate `id`. -/
structure History (id : Id) (evs : List (AggregateEvent Id P)) : Prop where
  own : ∀ e ∈ evs, e.aggregateId = id
  numbered : Numbered AggregateEvent.version Int32.ofNat 1 evs
  oneShard : ∀ e ∈ evs, ∀ e' ∈ evs, e.shardKey = e'.shardKey

/-- The shard key after a history: the first event's, or the constructor's when
    there is none. -/
def shardOf (shardKey : Int32) (evs : List (AggregateEvent Id P)) : Int32 :=
  (evs.head?.map AggregateEvent.shardKey).getD shardKey

/-- What a reader sees after a history, in closed form. -/
def viewOf (d : TotalDomain Id S P) (shardKey : Int32) (evs : List (AggregateEvent Id P)) :
    View S :=
  ⟨Int32.ofNat evs.length, shardOf shardKey evs, evs.foldl d.apply d.init⟩

/-- The object that was loaded from `loaded` and has recorded `changes` since. -/
def built (d : TotalDomain Id S P) (id : Id) (shardKey : Int32)
    (loaded changes : List (AggregateEvent Id P)) : Aggregate Id S P :=
  { id
    version := (viewOf d shardKey (loaded ++ changes)).version
    shardKey := (viewOf d shardKey (loaded ++ changes)).shardKey
    state := (viewOf d shardKey (loaded ++ changes)).state
    changes }

-- ============================================================================
-- Histories
-- ============================================================================

namespace History

variable {id : Id} {evs es : List (AggregateEvent Id P)} {e : AggregateEvent Id P}

theorem nil : History id ([] : List (AggregateEvent Id P)) where
  own _ he := absurd he List.not_mem_nil
  numbered := Numbered.nil
  oneShard _ he := absurd he List.not_mem_nil

/-- A prefix of a history is a history. -/
theorem of_isPrefix (h : History id evs) (hp : es <+: evs) : History id es where
  own e he := h.own e (hp.subset he)
  numbered := h.numbered.of_isPrefix hp
  oneShard e he e' he' := h.oneShard e (hp.subset he) e' (hp.subset he')

/-- The entry at index `i` carries version `i + 1`. -/
theorem version_append_cons {l₁ l₂ : List (AggregateEvent Id P)}
    (h : History id (l₁ ++ e :: l₂)) : e.version = Int32.ofNat (l₁.length + 1) := by
  have hn := (Numbered.append_iff.mp h.numbered).2
  rw [(Numbered.cons_iff.mp hn).1, Nat.add_comm]

/-- The shard key of a non-empty history is that of any of its events. -/
theorem shardOf_eq (h : History id evs) (he : e ∈ evs) (shardKey : Int32) :
    shardOf shardKey evs = e.shardKey := by
  cases evs with
  | nil => cases he
  | cons e₀ evs => exact h.oneShard e₀ List.mem_cons_self e he

/-- Below the range of `int` the versions are exactly `1, 2, …, n`. -/
theorem versions_toInt (h : History id evs) (hlen : evs.length < 2 ^ 31 - 1) :
    evs.map (fun e => e.version.toInt) =
      (List.range evs.length).map fun i : Nat => (i : Int) + 1 := by
  have hnum : Numbered (fun e : AggregateEvent Id P => e.version.toInt)
      (fun i => (i : Int)) 1 evs :=
    h.numbered.map Int32.toInt fun i _ hi => Int32.toInt_ofNat_of_lt (by omega)
  rw [hnum, List.range'_eq_map_range, List.map_map]
  exact List.map_congr_left fun i _ => by simp [Int.add_comm]

/-- Below the range of `int` the versions increase. -/
theorem pairwise_version (h : History id evs) (hlen : evs.length < 2 ^ 31 - 1) :
    evs.Pairwise fun e e' => e.version < e'.version := by
  have hnum : (evs.map fun e => e.version.toInt).Pairwise (· < ·) := by
    rw [h.versions_toInt hlen, List.pairwise_map]
    exact List.pairwise_lt_range.imp fun hij => by omega
  rw [List.pairwise_map] at hnum
  exact hnum.imp fun hlt => Int32.lt_iff_toInt_lt.mpr hlt

end History

-- ============================================================================
-- Replaying
-- ============================================================================

@[simp] theorem built_id (d : TotalDomain Id S P) (id : Id) (sk : Int32)
    (loaded changes : List (AggregateEvent Id P)) : (built d id sk loaded changes).id = id := rfl

@[simp] theorem built_changes (d : TotalDomain Id S P) (id : Id) (sk : Int32)
    (loaded changes : List (AggregateEvent Id P)) :
    (built d id sk loaded changes).changes = changes := rfl

@[simp] theorem built_view (d : TotalDomain Id S P) (id : Id) (sk : Int32)
    (loaded changes : List (AggregateEvent Id P)) :
    (built d id sk loaded changes).view = viewOf d sk (loaded ++ changes) := rfl

theorem built_version (d : TotalDomain Id S P) (id : Id) (sk : Int32)
    (loaded changes : List (AggregateEvent Id P)) :
    (built d id sk loaded changes).version = Int32.ofNat (loaded.length + changes.length) := by
  simp [built, viewOf]

/-- The constructor builds from nothing. -/
theorem new_eq_built (d : TotalDomain Id S P) (id : Id) (sk : Int32) :
    Aggregate.new d.domain id sk = built d id sk [] [] := rfl

/-- A snapshot taken after a history reads back as the object loaded from it. -/
theorem ofSnapshot_viewOf (d : TotalDomain Id S P) (id : Id) (sk : Int32)
    (evs : List (AggregateEvent Id P)) :
    Aggregate.ofSnapshot id (viewOf d sk evs) = built d id sk evs [] := by
  simp [Aggregate.ofSnapshot, built]

/-- `MarkAsCommited` turns the changes into loaded events. -/
theorem markAsCommited_built (d : TotalDomain Id S P) (id : Id) (sk : Int32)
    (loaded changes : List (AggregateEvent Id P)) :
    (built d id sk loaded changes).markAsCommited = built d id sk (loaded ++ changes) [] := by
  simp [Aggregate.markAsCommited, built]

/-- For a non-empty history the constructor's shard key does not matter. -/
theorem viewOf_eq_of_ne_nil (d : TotalDomain Id S P) {evs : List (AggregateEvent Id P)}
    (h : evs ≠ []) (sk sk' : Int32) : viewOf d sk evs = viewOf d sk' evs := by
  cases evs with
  | nil => exact absurd rfl h
  | cons e evs => rfl

variable [DecidableEq Id]

/-- Replaying the next event of a history. -/
theorem applyEvent_built (d : TotalDomain Id S P) {id : Id} (sk : Int32)
    {loaded changes : List (AggregateEvent Id P)} {e : AggregateEvent Id P}
    (h : History id (loaded ++ changes ++ [e])) :
    (built d id sk loaded changes).applyEvent d.domain e =
      .returned (built d id sk loaded (changes ++ [e])) := by
  have hid : e.aggregateId = id := h.own e (by simp)
  have hv : e.version = (built d id sk loaded changes).version + 1 := by
    rw [h.version_append_cons, built_version, List.length_append, Int32.ofNat_add]
    rfl
  have hshard : shardOf sk (loaded ++ changes ++ [e]) = e.shardKey := h.shardOf_eq (by simp) sk
  have hs : e.version = 1 ∨ e.shardKey = (built d id sk loaded changes).shardKey := by
    cases hnil : loaded ++ changes with
    | nil =>
        left
        have := h.version_append_cons
        rw [hnil] at this
        exact this
    | cons e₀ evs =>
        right
        rw [← hshard]
        simp [built, viewOf, shardOf, hnil]
  rw [Aggregate.applyEvent_of_next d hid hv hs]
  have hlen : e.version = Int32.ofNat (loaded ++ (changes ++ [e])).length := by
    rw [h.version_append_cons]
    simp [Nat.add_assoc]
  rw [List.append_assoc] at hshard
  simp only [built, viewOf, hlen, hshard]
  simp [← List.append_assoc]

/-- Replaying the next event of a history that the domain part accepts. -/
theorem applyEvent_accepted (d : Domain Id S P) {id : Id} (sk : Int32)
    {loaded changes : List (AggregateEvent Id P)} {e : AggregateEvent Id P}
    (h : History id (loaded ++ changes ++ [e]))
    (haccepts : d.Accepts d.init (loaded ++ changes ++ [e])) :
    (built d.total id sk loaded changes).applyEvent d e =
      .returned (built d.total id sk loaded (changes ++ [e])) := by
  obtain ⟨s, hs, -⟩ := (Domain.accepts_append.mp haccepts).2
  rw [Aggregate.applyEvent_of_accepts hs]
  exact applyEvent_built d.total sk h

/-- **Replay.** Applying the next events of a history to the object built from its
    beginning never throws and builds the object of the longer history. -/
theorem applyEvents_accepted (d : Domain Id S P) {id : Id} (sk : Int32)
    {loaded changes es : List (AggregateEvent Id P)}
    (h : History id (loaded ++ changes ++ es))
    (haccepts : d.Accepts d.init (loaded ++ changes ++ es)) :
    (built d.total id sk loaded changes).applyEvents d es =
      .returned (built d.total id sk loaded (changes ++ es)) := by
  induction es generalizing changes with
  | nil => simp
  | cons e es ih =>
      have hpre : loaded ++ changes ++ [e] <+: loaded ++ changes ++ e :: es :=
        ⟨es, by simp⟩
      rw [Aggregate.applyEvents_cons_of_returned
          (applyEvent_accepted d sk (h.of_isPrefix hpre) (haccepts.of_isPrefix hpre)),
        ih (by simpa using h) (by simpa using haccepts)]
      simp

theorem applyEvents_built (d : TotalDomain Id S P) {id : Id} (sk : Int32)
    {loaded changes es : List (AggregateEvent Id P)}
    (h : History id (loaded ++ changes ++ es)) :
    (built d id sk loaded changes).applyEvents d.domain es =
      .returned (built d id sk loaded (changes ++ es)) :=
  applyEvents_accepted d.domain sk h (d.accepts _ _)

/-- Replaying a whole history on a new object. -/
theorem applyEvents_new_accepted (d : Domain Id S P) {id : Id} (sk : Int32)
    {evs : List (AggregateEvent Id P)} (h : History id evs)
    (haccepts : d.Accepts d.init evs) :
    (Aggregate.new d id sk).applyEvents d evs = .returned (built d.total id sk [] evs) := by
  have h' : History id ([] ++ [] ++ evs) := h
  exact applyEvents_accepted d sk h' haccepts

theorem applyEvents_new (d : TotalDomain Id S P) {id : Id} (sk : Int32)
    {evs : List (AggregateEvent Id P)} (h : History id evs) :
    (Aggregate.new d.domain id sk).applyEvents d.domain evs =
      .returned (built d id sk [] evs) :=
  applyEvents_new_accepted d.domain sk h (d.accepts _ _)

omit [DecidableEq Id] in
/-- One more event of the aggregate, with the next version and the same key. -/
theorem History.snoc {id : Id} {evs : List (AggregateEvent Id P)} {e : AggregateEvent Id P}
    (h : History id evs) (hid : e.aggregateId = id)
    (hv : e.version = Int32.ofNat evs.length + 1) {sk : Int32}
    (hs : evs = [] ∨ e.shardKey = shardOf sk evs) : History id (evs ++ [e]) where
  own := by
    intro e' he'
    rcases List.mem_append.mp he' with he' | he'
    · exact h.own e' he'
    · rw [List.mem_singleton.mp he', hid]
  numbered := by
    refine Numbered.append_iff.mpr ⟨h.numbered, Numbered.singleton_iff.mpr ?_⟩
    rw [hv, Int32.ofNat_add, Int32.add_comm]
    rfl
  oneShard := by
    have key : ∀ e' ∈ evs, e'.shardKey = e.shardKey := by
      intro e' he'
      have hne : evs ≠ [] := List.ne_nil_of_mem he'
      rw [hs.resolve_left hne, h.shardOf_eq he' sk]
    intro e₁ he₁ e₂ he₂
    rcases List.mem_append.mp he₁ with he₁ | he₁ <;> rcases List.mem_append.mp he₂ with he₂ | he₂
    · exact h.oneShard e₁ he₁ e₂ he₂
    · rw [List.mem_singleton.mp he₂]
      exact key e₁ he₁
    · rw [List.mem_singleton.mp he₁]
      exact (key e₂ he₂).symm
    · rw [List.mem_singleton.mp he₁, List.mem_singleton.mp he₂]

omit [DecidableEq Id] in
/-- The event a command raises continues the history the object was built from. -/
theorem History.nextEvent (d : TotalDomain Id S P) {id : Id} (sk : Int32)
    {loaded changes : List (AggregateEvent Id P)} (h : History id (loaded ++ changes))
    (type : ClrType) (payload : P) :
    History id (loaded ++ changes ++
      [(built d id sk loaded changes).nextEvent type payload]) := by
  refine h.snoc rfl ?_ (Or.inr rfl)
  rw [Aggregate.nextEvent, built_version, List.length_append]

/-- Events of the aggregate that a new object takes in without a throw are a history. -/
theorem History.of_applyEvents (d : TotalDomain Id S P) {id : Id} (sk : Int32)
    {changes es : List (AggregateEvent Id P)} {a : Aggregate Id S P}
    (h : History id changes) (hown : ∀ e ∈ es, e.aggregateId = id)
    (hshort : (changes ++ es).length < 2 ^ 31 - 1)
    (ha : (built d id sk [] changes).applyEvents d.domain es = .returned a) :
    History id (changes ++ es) := by
  induction es generalizing changes with
  | nil => simpa using h
  | cons e es ih =>
      have hid : e.aggregateId = id := hown e List.mem_cons_self
      simp only [List.length_append, List.length_cons] at hshort
      cases he : (built d id sk [] changes).applyEvent d.domain e with
      | threw a' => simp [Aggregate.applyEvents, he] at ha
      | returned a' =>
          obtain ⟨hv, hs, -⟩ := Aggregate.applyEvent_eq_returned hid he
          rw [built_version, List.length_nil, Nat.zero_add] at hv
          -- version 1 is the first event's: the versions do not wrap around
          have hs : changes = [] ∨ e.shardKey = shardOf sk changes := by
            rcases hs with h1 | hs
            · left
              have h1 : Int32.ofNat (changes.length + 1) = 1 := by
                rw [Int32.ofNat_add, ← h1, hv]
                rfl
              have h1 := congrArg Int32.toInt h1
              rw [Int32.toInt_ofNat_of_lt (by omega), Int32.toInt_one] at h1
              exact List.eq_nil_of_length_eq_zero (by omega)
            · exact Or.inr hs
          have hnext := h.snoc hid hv hs
          have hnext' : History id ([] ++ changes ++ [e]) := by simpa using hnext
          rw [Aggregate.applyEvents_cons_of_returned (applyEvent_built d sk hnext')] at ha
          have hrest := ih hnext (fun e' he' => hown e' (List.mem_cons_of_mem e he'))
            (by simp; omega) ha
          simpa using hrest

end Milde.EventSourcing
