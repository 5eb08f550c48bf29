/-
  Milde.UserManagement.SampleClient

  `PopulateData` of the console client (samples/Sample.ConsoleClient/SampleClientProgram.cs).

  `Parallel.ForEach` runs the bodies of all indices side by side.  A body makes its calls one
  after another, since a call of the proxy blocks, and the service serves the calls of all
  bodies in any order.  A turn is the next call of one body.  The bodies work on different
  users, so every order of turns leaves each index one user, with the data of the last calls
  and a count that depends on which calls repeat a value (`populates`).
-/
import Milde.UserManagement.Directory

namespace Milde.UserManagement

open Milde.EventSourcing Milde.EventStore Milde.AggregateCache

variable {Id : Type}

/-- How far the body of an index has come: after `CreateUser` it knows its user, and counts
    the changes that have been answered.  A call that throws ends it. -/
inductive Body (Id : Type) where
  | started
  | changing (user : Id) (answered : Nat)
  | failed

/-- The changes of a body, in order. -/
def bodyEvents (index : Nat) (age : Int32) : List UserEvent :=
  [.firstNameChanged (some "B"), .firstNameChanged (some "User"), .lastNameChanged (some "2"),
    .lastNameChanged (some (toString index)), .ageChanged 20, .ageChanged age]

/-- The next call of a body; `age` is what `rand.Next(20, 50)` yields. -/
def Body.call (index : Nat) (age : Int32) : Body Id → Option (Call Id)
  | .started => some (.createUser (some "A") (some "1") 18)
  | .changing user 0 => some (.changeUserFirstName user (some "B"))
  | .changing user 1 => some (.changeUserFirstName user (some "User"))
  | .changing user 2 => some (.changeUserLastName user (some "2"))
  | .changing user 3 => some (.changeUserLastName user (some (toString index)))
  | .changing user 4 => some (.changeUserAge user 20)
  | .changing user 5 => some (.changeUserAge user age)
  | _ => none

def Body.answer : Body Id → Answer Id → Body Id
  | .started, .ok (.user dto) => .changing dto.id 0
  | .changing user answered, .ok _ => .changing user (answered + 1)
  | _, _ => .failed

/-- The service, and the bodies by their indices. -/
structure Populate (Id : Type) where
  service : Service Id
  bodies : List (Body Id)

/-- Of one turn: whose it is, what `rand.Next` yields, and what the service adds. -/
structure Turn (Id : Type) where
  index : Nat
  age : Int32
  newGuid : Id
  shardKey : Int32
  fails : SaveCall → Bool
  drop : Bool

def Turn.invocation (t : Turn Id) (call : Call Id) : Invocation Id :=
  ⟨call, t.newGuid, t.shardKey, t.fails, t.drop⟩

namespace Populate

def start (s : Service Id) (quantity : Nat) : Populate Id := ⟨s, List.replicate quantity .started⟩

def step [DecidableEq Id] [ToString Id] (p : Populate Id) (t : Turn Id) : Option (Populate Id) :=
  if 20 ≤ t.age ∧ t.age < 50 then
    match p.bodies[t.index]? with
    | none => none
    | some body =>
        match body.call t.index t.age with
        | none => none
        | some call =>
            (p.service.step (t.invocation call)).map fun s =>
              ⟨s, p.bodies.set t.index (body.answer (p.service.handle (t.invocation call)).1)⟩
  else none

end Populate

/-- No turn is left. -/
def Body.Ended (body : Body Id) : Prop := ∀ index age, body.call index age = none

-- ============================================================================
-- One body
-- ============================================================================

/-- The entry of a body's user. -/
def progress (index : Nat) (age : Int32) (answered : Nat) : UserState × Nat :=
  ((bodyEvents index age).take answered).foldl (fun entry e => changeEntry e entry)
    (⟨some "A", some "1", 18⟩, 1)

theorem progress_succ {index answered : Nat} {age : Int32} {e : UserEvent}
    (h : (bodyEvents index age)[answered]? = some e) :
    progress index age (answered + 1) = changeEntry e (progress index age answered) := by
  rw [progress, List.take_add_one, h, List.foldl_append]
  rfl

/-- A user of a body has one event for each answered call at most. -/
theorem progress_le (index : Nat) (age : Int32) (answered : Nat) :
    (progress index age answered).2 ≤ answered + 1 := by
  have hfold : ∀ (es : List UserEvent) (entry : UserState × Nat),
      (es.foldl (fun entry e => changeEntry e entry) entry).2 ≤ entry.2 + es.length := by
    intro es
    induction es with
    | nil => exact fun entry => le_rfl
    | cons e es ih =>
        intro entry
        have hchange : (changeEntry e entry).2 ≤ entry.2 + 1 := by
          obtain ⟨u, n⟩ := entry
          show (if u.apply e = u then (u, n) else (u.apply e, n + 1)).2 ≤ n + 1
          split
          · exact Nat.le_succ n
          · exact le_rfl
        have hrest := ih (changeEntry e entry)
        rw [List.foldl_cons, List.length_cons]
        omega
  have hall := hfold ((bodyEvents index age).take answered) (⟨some "A", some "1", 18⟩, 1)
  have hlen := List.length_take_le answered (bodyEvents index age)
  rw [progress]
  omega

/-- Before the last call the random age does not matter. -/
theorem progress_age {answered : Nat} (h : answered ≤ 5) (index : Nat) (age age' : Int32) :
    progress index age answered = progress index age' answered := by
  have htake : ∀ age, (bodyEvents index age).take answered =
      ((bodyEvents index 20).take 5).take answered := by
    intro age
    have hfive : (bodyEvents index 20).take 5 = (bodyEvents index age).take 5 := rfl
    rw [hfive, List.take_take, Nat.min_eq_left h]
  rw [progress, progress, htake age, htake age']

/-- At the end: five changes at least, one more when the index is not the name that the user
    had, and one more when the age is not. -/
theorem progress_six (index : Nat) (age : Int32) :
    progress index age 6 = (⟨some "User", some (toString index), age⟩,
      5 + (if toString index = "2" then 0 else 1) + (if age = 20 then 0 else 1)) := by
  have hfour : progress index age 3 = (⟨some "User", some "2", 18⟩, 4) := by
    rw [progress_age (by omega) index age 20]
    rfl
  have hfive : progress index age 4 = (⟨some "User", some (toString index), 18⟩,
      4 + if toString index = "2" then 0 else 1) := by
    rw [progress_succ (e := .lastNameChanged (some (toString index))) rfl, hfour]
    generalize toString index = name
    by_cases hname : name = "2"
    · simp [changeEntry, UserState.apply, hname]
    · simp [changeEntry, UserState.apply, hname]
  have hsix : progress index age 5 = (⟨some "User", some (toString index), 20⟩,
      5 + if toString index = "2" then 0 else 1) := by
    rw [progress_succ (e := .ageChanged 20) rfl, hfive]
    generalize toString index = name
    by_cases hname : name = "2"
    · simp [changeEntry, UserState.apply, hname]
    · simp [changeEntry, UserState.apply, hname]
  rw [progress_succ (e := .ageChanged age) rfl, hsix]
  by_cases hage : age = 20
  · simp [changeEntry, UserState.apply, hage]
  · simp [changeEntry, UserState.apply, hage]

theorem Body.call_changing {index answered : Nat} {age : Int32} {user : Id} {call : Call Id}
    (h : Body.call index age (.changing user answered) = some call) :
    ∃ e, (bodyEvents index age)[answered]? = some e ∧ call.event = some (user, e) ∧
      answered < 6 := by
  match answered with
  | 0 | 1 | 2 | 3 | 4 | 5 =>
      obtain rfl := Option.some.inj h
      exact ⟨_, rfl, rfl, by omega⟩
  | n + 6 => cases h

-- ============================================================================
-- All bodies
-- ============================================================================

section Bodies

variable [DecidableEq Id] [ToString Id] {p p' : Populate Id} {t : Turn Id}
  {dir : Directory Id}

theorem Populate.step_cases (hstep : p.step t = some p') :
    (20 ≤ t.age ∧ t.age < 50) ∧ ∃ body call s, p.bodies[t.index]? = some body ∧
      body.call t.index t.age = some call ∧ p.service.step (t.invocation call) = some s ∧
      p' = ⟨s, p.bodies.set t.index
        (body.answer (p.service.handle (t.invocation call)).1)⟩ := by
  unfold Populate.step at hstep
  split at hstep
  case isFalse => cases hstep
  rename_i hage
  split at hstep
  · cases hstep
  rename_i body hbody
  split at hstep
  · cases hstep
  rename_i call hcall
  obtain ⟨s, hs, rfl⟩ := Option.map_eq_some_iff.mp hstep
  exact ⟨hage, body, call, s, hbody, hcall, hs, rfl⟩

/-- The bodies have different users, which were not there before; the entry of each is what
    the answered calls have made of it; and all other entries are as they were. -/
structure Populate.Inv (p : Populate Id) (dir : Directory Id) (quantity : Nat) : Prop where
  clean : p.service.Clean
  length : p.bodies.length = quantity
  works : ∀ k : Nat, p.bodies[k]? ≠ some Body.failed
  known : ∀ (k : Nat) user n, p.bodies[k]? = some (Body.changing user n) → dir user = none ∧ n ≤ 6 ∧
    ∃ age, 20 ≤ age ∧ age < 50 ∧ p.service.directory user = some (progress k age n)
  apart : ∀ (j k : Nat) user m n, p.bodies[j]? = some (Body.changing user m) →
    p.bodies[k]? = some (Body.changing user n) → j = k
  others : ∀ id, (∀ (k : Nat) n, p.bodies[k]? ≠ some (Body.changing id n)) →
    p.service.directory id = dir id

omit [ToString Id] in
/-- A body gets a user, or gets on with the one that it has. -/
theorem Populate.Inv.advance {quantity k m : Nat} {age : Int32} {s : Service Id} {user : Id}
    (h : p.Inv dir quantity) (hclean : s.Clean) (hk : k < p.bodies.length)
    (hnew : dir user = none) (hm : m ≤ 6) (hage : 20 ≤ age ∧ age < 50)
    (hsame : ∀ (j : Nat) n, p.bodies[j]? = some (Body.changing user n) → j = k)
    (hown : ∀ id n, p.bodies[k]? = some (Body.changing id n) → id = user)
    (hdir : s.directory = Function.update p.service.directory user (some (progress k age m))) :
    Populate.Inv ⟨s, p.bodies.set k (Body.changing user m)⟩ dir quantity := by
  have hself : (p.bodies.set k (Body.changing user m))[k]? = some (Body.changing user m) :=
    List.getElem?_set_self hk
  have hother : ∀ j : Nat, j ≠ k → (p.bodies.set k (Body.changing user m))[j]? = p.bodies[j]? :=
    fun j hj => List.getElem?_set_ne (Ne.symm hj)
  have hcases : ∀ (j : Nat) id n,
      (p.bodies.set k (Body.changing user m))[j]? = some (Body.changing id n) →
      (j = k ∧ id = user ∧ n = m) ∨
        (j ≠ k ∧ p.bodies[j]? = some (Body.changing id n) ∧ id ≠ user) := by
    intro j id n hj
    by_cases hjk : j = k
    · subst hjk
      rw [hself] at hj
      cases hj
      exact Or.inl ⟨rfl, rfl, rfl⟩
    · rw [hother j hjk] at hj
      refine Or.inr ⟨hjk, hj, ?_⟩
      rintro rfl
      exact hjk (hsame j n hj)
  refine ⟨hclean, by rw [List.length_set]; exact h.length, ?_, ?_, ?_, ?_⟩
  · intro j hj
    by_cases hjk : j = k
    · subst hjk
      rw [hself] at hj
      cases hj
    · rw [hother j hjk] at hj
      exact h.works j hj
  · intro j id n hj
    rcases hcases j id n hj with ⟨rfl, rfl, rfl⟩ | ⟨-, hj, hne⟩
    · exact ⟨hnew, hm, age, hage.1, hage.2, by rw [hdir, Function.update_self]⟩
    · rw [hdir, Function.update_of_ne hne]
      exact h.known j id n hj
  · intro j j' id n n' hj hj'
    rcases hcases j id n hj with ⟨rfl, rfl, rfl⟩ | ⟨-, hj, hne⟩
    · rcases hcases j' id n' hj' with ⟨rfl, -⟩ | ⟨-, -, hne'⟩
      · rfl
      · exact absurd rfl hne'
    · rcases hcases j' id n' hj' with ⟨-, rfl, -⟩ | ⟨-, hj', -⟩
      · exact absurd rfl hne
      · exact h.apart j j' id n n' hj hj'
  · intro id hid
    have hne : id ≠ user := by
      rintro rfl
      exact hid k m hself
    rw [hdir, Function.update_of_ne hne]
    refine h.others id fun j n hj => ?_
    by_cases hjk : j = k
    · subst hjk
      exact hne (hown id n hj)
    · exact hid j n ((hother j hjk).trans hj)

omit [ToString Id] in
/-- The versions stay in the range of `int`. -/
theorem Populate.Inv.inRange {quantity : Nat} {s : Service Id} (h : p.Inv s.directory quantity)
    (hs : s.Clean) (hrange : s.InRange) : p.service.InRange := by
  intro id
  have hlen := hrange id
  rw [h.clean.length_eq]
  by_cases huser : ∃ (k : Nat) (n : Nat), p.bodies[k]? = some (Body.changing id n)
  · obtain ⟨k, n, hk⟩ := huser
    obtain ⟨-, hn, age, -, -, hentry⟩ := h.known k id n hk
    have hcount := progress_le k age n
    rw [hentry]
    show (progress k age n).2 + 1 < _
    omega
  · rw [h.others id fun k n hk => huser ⟨k, n, hk⟩, ← hs.length_eq]
    exact hlen

/-- One turn. -/
theorem Populate.Inv.step {quantity : Nat} (h : p.Inv dir quantity)
    (hrange : p.service.InRange) (hhealthy : ∀ c, t.fails c = false)
    (hstep : p.step t = some p') : p'.Inv dir quantity := by
  obtain ⟨hage, body, call, s, hbody, hcall, hs, rfl⟩ := step_cases hstep
  have hk : t.index < p.bodies.length := (List.getElem?_eq_some_iff.mp hbody).1
  have hhealthy : (t.invocation call).Healthy := hhealthy
  obtain ⟨hclean, hanswers, hdirectory⟩ := h.clean.step hrange hhealthy hs
  cases body with
  | failed => cases hcall
  | started =>
      -- the new user gets an id that no body's user has
      obtain rfl := Option.some.inj hcall
      have hfresh : p.service.Fresh t.newGuid := by
        unfold Service.step at hs
        split at hs
        · assumption
        · cases hs
      have hnone : p.service.directory t.newGuid = none := h.clean.directory_of_none hfresh.1
      have hnot : ∀ (j : Nat) n, p.bodies[j]? ≠ some (Body.changing t.newGuid n) := by
        intro j n hj
        obtain ⟨-, -, age, -, -, hentry⟩ := h.known j t.newGuid n hj
        rw [hnone] at hentry
        cases hentry
      have hanswer : (p.service.handle (t.invocation (.createUser (some "A") (some "1") 18))).1 =
          .ok (.user ⟨t.newGuid, some "A", some "1", 18⟩) := hanswers
      rw [hanswer]
      refine h.advance hclean hk ((h.others _ hnot).symm.trans hnone) (Nat.zero_le 6) hage
        (fun j n hj => absurd hj (hnot j n)) (fun id n hbody' => ?_) hdirectory
      rw [hbody] at hbody'
      cases hbody'
  | changing user n =>
      obtain ⟨e, he, hevent, hn⟩ := Body.call_changing hcall
      obtain ⟨hnew, -, age, -, -, hentry⟩ := h.known _ user n hbody
      rw [progress_age (by omega) t.index age t.age] at hentry
      have hanswer := (Directory.answers_of_event hevent _).mp hanswers
      rw [hentry] at hanswer
      rw [Directory.next_of_event hevent, hentry, Option.map_some, ← progress_succ he] at hdirectory
      rw [hanswer]
      refine h.advance hclean hk hnew hn hage (fun j m hj => h.apart _ _ _ _ _ hj hbody)
        (fun id m hbody' => ?_) hdirectory
      rw [hbody] at hbody'
      cases hbody'
      rfl

omit [ToString Id] in
theorem Populate.inv_start {s : Service Id} (h : s.Clean) (quantity : Nat) :
    (Populate.start s quantity).Inv s.directory quantity := by
  have hbody : ∀ (k : Nat) body, (Populate.start s quantity).bodies[k]? = some body →
      body = .started := by
    intro k body hk
    exact List.eq_of_mem_replicate (List.mem_of_getElem? hk)
  have hnot : ∀ (k : Nat) user n,
      (Populate.start s quantity).bodies[k]? ≠ some (Body.changing user n) := by
    intro k user n hk
    cases hbody k _ hk
  refine ⟨h, List.length_replicate, ?_, ?_, ?_, fun _ _ => rfl⟩
  · intro k hk
    cases hbody k _ hk
  · intro k user n hk
    exact absurd hk (hnot k user n)
  · intro j k user m n hj
    exact absurd hj (hnot j user m)

/-- **Populating the service.** Whatever the order of the turns, when all bodies have ended
    and no call inside `Save` has thrown, every index has a user of its own, new to the
    service, named after it and of the last random age, with the events that were not
    repetitions; and no other user has changed. -/
theorem populates {s₀ : Service Id} {store : Store Id UserEvent} {quantity : Nat}
    {turns : List (Turn Id)} (hinit : s₀.process = Process.initialized userDomain store)
    (hstreams : ∀ id, History id (store.aggregate id))
    (hrange : s₀.InRange) (hhealthy : ∀ t ∈ turns, ∀ c, t.fails c = false)
    (hrun : Transition.run Populate.step (Populate.start s₀ quantity) turns = some p)
    (hended : ∀ body ∈ p.bodies, body.Ended) :
    (∀ k < quantity, ∃ user age, p.bodies[k]? = some (Body.changing user 6) ∧
      s₀.directory user = none ∧ 20 ≤ age ∧ age < 50 ∧
      p.service.directory user = some (⟨some "User", some (toString k), age⟩,
        5 + (if toString k = "2" then 0 else 1) + (if age = 20 then 0 else 1))) ∧
    (∀ (j k : Nat) user, p.bodies[j]? = some (Body.changing user 6) →
      p.bodies[k]? = some (Body.changing user 6) → j = k) ∧
    ∀ id, (∀ k : Nat, p.bodies[k]? ≠ some (Body.changing id 6)) →
      p.service.directory id = s₀.directory id := by
  have hclean := Service.clean_initialized hinit hstreams
  have hinv : p.Inv s₀.directory quantity :=
    Transition.run_invariant_along (I := fun p => Populate.Inv p s₀.directory quantity)
      (C := fun _ t => ∀ c, t.fails c = false)
      (fun _ _ _ h hhealthy hstep => h.step (h.inRange hclean hrange) hhealthy hstep)
      (Populate.inv_start hclean quantity)
      (Transition.along_of_mem (fun t ht _ => hhealthy t ht) _) hrun
  have hsix : ∀ (k : Nat) user n, p.bodies[k]? = some (Body.changing user n) → n = 6 := by
    intro k user n hk
    obtain ⟨-, hn, -⟩ := hinv.known k user n hk
    have hcall := hended _ (List.mem_of_getElem? hk) k 20
    match n, hn, hcall with
    | 0, _, hcall | 1, _, hcall | 2, _, hcall | 3, _, hcall | 4, _, hcall | 5, _, hcall =>
        cases hcall
    | 6, _, _ => rfl
  refine ⟨?_, fun j k user hj hk => hinv.apart j k user 6 6 hj hk, ?_⟩
  · intro k hk
    have hlt : k < p.bodies.length := by
      rw [hinv.length]
      exact hk
    obtain ⟨body, hbody⟩ : ∃ body, p.bodies[k]? = some body := ⟨_, List.getElem?_eq_getElem hlt⟩
    cases body with
    | failed => exact absurd hbody (hinv.works k)
    | started => cases hended _ (List.mem_of_getElem? hbody) k 20
    | changing user n =>
        obtain rfl := hsix k user n hbody
        obtain ⟨hnew, -, age, hlo, hhi, hentry⟩ := hinv.known k user 6 hbody
        exact ⟨user, age, hbody, hnew, hlo, hhi, by rw [hentry, progress_six]⟩
  · intro id hid
    refine hinv.others id fun k n hk => ?_
    obtain rfl := hsix k id n hk
    exact hid k hk

end Bodies

/-- Two bodies that take turns. -/
def takeTurns : List (Turn Nat) :=
  [0, 1, 2, 3, 4, 5, 6].flatMap fun n =>
    [⟨0, 20, 100 + n, 1, fun _ => false, false⟩, ⟨1, 36, 200 + n, 2, fun _ => false, false⟩]

theorem populates_takeTurns :
    ∃ p, Transition.run Populate.step (Populate.start noUserService 2) takeTurns = some p ∧
      p.bodies = [Body.changing 100 6, Body.changing 200 6] ∧
      ∃ age, p.service.directory 200 = some (⟨some "User", some "1", age⟩,
        6 + (if age = 20 then 0 else 1)) := by
  have hrun : Transition.run Populate.step (Populate.start noUserService 2) takeTurns = some _ :=
    rfl
  have hbodies : ∀ p, Transition.run Populate.step (Populate.start noUserService 2) takeTurns =
      some p → p.bodies = [Body.changing 100 6, Body.changing 200 6] := by
    intro p hp
    obtain rfl := Option.some.inj (hrun.symm.trans hp)
    rfl
  obtain ⟨p, hp⟩ : ∃ p, Transition.run Populate.step (Populate.start noUserService 2) takeTurns =
    some p := ⟨_, hrun⟩
  have hended : ∀ body ∈ p.bodies, body.Ended := by
    rw [hbodies p hp]
    intro body hbody index age
    rcases List.mem_pair.mp hbody with rfl | rfl
    · rfl
    · rfl
  have hhealthy : ∀ t ∈ takeTurns, ∀ c, t.fails c = false := by
    intro t ht c
    simp only [takeTurns, List.mem_flatMap, List.mem_cons, List.not_mem_nil, or_false] at ht
    obtain ⟨n, -, rfl | rfl⟩ := ht
    · rfl
    · rfl
  have hrange : noUserService.InRange := fun _ => by simp [noUserService, Store.empty]
  obtain ⟨hall, -⟩ :=
    populates process_noUserService (fun _ => History.nil) hrange hhealthy hp hended
  obtain ⟨user, age, hbody, -, -, -, hentry⟩ := hall 1 (by decide)
  rw [hbodies p hp] at hbody
  cases hbody
  exact ⟨p, hp, hbodies p hp, age, hentry⟩

end Milde.UserManagement
