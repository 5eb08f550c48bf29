/-
  Milde.UserManagement.Directory

  What the sample service is for: a directory of users.

  A `Directory` has of every user the data and the number of changes.  As long as no call
  inside `Save` fails, the service answers as the directory that its store replays to, and
  every call changes this directory as it should (`refines_directory`).  A call changes the
  entry of one user only (`foldl_next_apply`).
-/
import Milde.UserManagement.Service

namespace Milde.UserManagement

open Milde.EventSourcing Milde.EventStore Milde.AggregateCache

variable {Id : Type}

abbrev Directory (Id : Type) := Id → Option (UserState × Nat)

def UserState.toDto (u : UserState) (id : Id) : UserDto Id := ⟨id, u.firstName, u.lastName, u.age⟩

/-- A change that changes something is counted. -/
def changeEntry (e : UserEvent) : UserState × Nat → UserState × Nat
  | (u, n) => if u.apply e = u then (u, n) else (u.apply e, n + 1)

/-- The user that a call creates or changes, and what becomes of the entry. -/
def Invocation.effect (inv : Invocation Id) :
    Option (Id × (Option (UserState × Nat) → Option (UserState × Nat))) :=
  match inv.call with
  | .createUser firstName lastName age =>
      some (inv.newGuid, fun _ => some (⟨firstName, lastName, age.toInt32⟩, 1))
  | call => call.event.map fun (id, e) => (id, Option.map (changeEntry e))

/-- What a call does to the directory. -/
def Directory.next [DecidableEq Id] (dir : Directory Id) (inv : Invocation Id) : Directory Id :=
  match inv.effect with
  | none => dir
  | some (id, change) => Function.update dir id (change (dir id))

/-- What a call is answered. -/
def Directory.Answers [ToString Id] (dir : Directory Id) (inv : Invocation Id)
    (answer : Answer Id) : Prop :=
  match inv.call with
  | .get => ∃ dtos, answer = .ok (.users dtos) ∧ (dtos.map UserDto.id).Nodup ∧
      ∀ dto, dto ∈ dtos ↔ ∃ n, dir dto.id = some (dto.state, n)
  | .createUser firstName lastName age =>
      answer = .ok (.user ⟨inv.newGuid, firstName, lastName, age.toInt32⟩)
  | .throwException _ => answer = .error .notImplementedException
  | call => ∀ id e, call.event = some (id, e) → answer =
      match dir id with
      | none => .error (.exception s!"User with ID {id} not found")
      | some (u, _) => .ok (.user ((u.apply e).toDto id))

/-- The directory that the store of a service replays to. -/
def Service.directory [DecidableEq Id] (s : Service Id) : Directory Id := fun id =>
  (replayed userDomain.domain s.store id).map fun v => (v.state, (s.store.aggregate id).length)

/-- No call inside `Save` throws. -/
def Invocation.Healthy (inv : Invocation Id) : Prop := ∀ c, inv.fails c = false

-- ============================================================================
-- The directory alone
-- ============================================================================

section Directory

variable [DecidableEq Id] {dir : Directory Id} {inv : Invocation Id} {id : Id} {e : UserEvent}

omit [DecidableEq Id] in
theorem Invocation.effect_of_event (h : inv.call.event = some (id, e)) :
    inv.effect = some (id, Option.map (changeEntry e)) := by
  cases hcall : inv.call with
  | createUser firstName lastName age => simp [hcall, Call.event] at h
  | _ =>
      rw [hcall] at h
      simp only [effect, hcall, h, Option.map_some]

theorem Directory.next_of_event (h : inv.call.event = some (id, e)) :
    dir.next inv = Function.update dir id ((dir id).map (changeEntry e)) := by
  simp only [next, Invocation.effect_of_event h]

omit [DecidableEq Id] in
theorem Directory.answers_of_event [ToString Id] (h : inv.call.event = some (id, e))
    (answer : Answer Id) :
    dir.Answers inv answer ↔ answer =
      match dir id with
      | none => .error (.exception s!"User with ID {id} not found")
      | some (u, _) => .ok (.user ((u.apply e).toDto id)) := by
  cases hcall : inv.call with
  | get => simp [hcall, Call.event] at h
  | createUser firstName lastName age => simp [hcall, Call.event] at h
  | throwException aggregateId => simp [hcall, Call.event] at h
  | _ =>
      rw [hcall] at h
      simp only [Answers, hcall, h, Option.some.injEq, Prod.mk.injEq, and_imp]
      exact ⟨fun hall => hall id e rfl rfl, by rintro rfl id' e' rfl rfl; rfl⟩

/-- A call changes the entry of its user only. -/
theorem Directory.next_of_ne (h : inv.effect.map Prod.fst ≠ some id) :
    dir.next inv id = dir id := by
  cases heffect : inv.effect with
  | none => simp only [next, heffect]
  | some change =>
      rw [heffect, Option.map_some, ne_eq, Option.some.injEq] at h
      simp only [next, heffect, Function.update_of_ne (Ne.symm h)]

/-- … and what becomes of the entry depends on the entry only. -/
theorem Directory.next_congr {dir' : Directory Id} (h : dir id = dir' id) :
    dir.next inv id = dir'.next inv id := by
  cases heffect : inv.effect with
  | none =>
      simp only [next, heffect]
      exact h
  | some change =>
      simp only [next, heffect]
      by_cases hid : id = change.1
      · subst hid
        rw [Function.update_self, Function.update_self, h]
      · rw [Function.update_of_ne hid, Function.update_of_ne hid, h]

/-- The entry of a user after any calls is what the calls for this user make of it. -/
theorem Directory.foldl_next_apply (dir : Directory Id) (invs : List (Invocation Id)) (id : Id) :
    invs.foldl next dir id =
      (invs.filter fun inv => inv.effect.map Prod.fst = some id).foldl next dir id := by
  have hgen : ∀ dir' : Directory Id, dir id = dir' id → invs.foldl next dir id =
      (invs.filter fun inv => inv.effect.map Prod.fst = some id).foldl next dir' id := by
    induction invs generalizing dir with
    | nil => exact fun _ h => h
    | cons inv invs ih =>
        intro dir' h
        by_cases huser : inv.effect.map Prod.fst = some id
        · rw [List.filter_cons_of_pos (by simpa using huser), List.foldl_cons, List.foldl_cons]
          exact ih _ _ (next_congr h)
        · rw [List.filter_cons_of_neg (by simpa using huser), List.foldl_cons]
          exact ih _ _ ((next_of_ne huser).trans h)
  exact hgen dir rfl

end Directory

-- ============================================================================
-- The service as the directory
-- ============================================================================

section Refinement

variable [DecidableEq Id] {s s' : Service Id} {inv : Invocation Id} {id : Id} {u : User Id}

/-- Nothing is cached but what is stored, and all that is stored is cached. -/
structure Service.Clean (s : Service Id) : Prop where
  streams : ∀ id, History id (s.store.aggregate id)
  absent : ∀ id, s.memory.find id = none → s.store.aggregate id = []
  present : ∀ id u, s.memory.find id = some u → Saved s id u

omit [DecidableEq Id] in
theorem Service.clean_initialized {store : Store Id UserEvent}
    (hinit : s.process = Process.initialized userDomain store)
    (hstreams : ∀ id, History id (store.aggregate id)) : s.Clean := by
  have hstore : s.store = store := congrArg Process.store hinit
  have hmemory : ∀ id, s.memory.find id = (Process.initialized userDomain store).memory id :=
    fun id => congrFun (congrArg Process.memory hinit) id
  have hinv := Process.inv_initialized (d := userDomain) hstreams
  refine ⟨by rw [hstore]; exact hstreams, ?_, ?_⟩
  · intro id hnone
    rw [hmemory] at hnone
    rw [hstore]
    exact hinv.absent id hnone
  · intro id u hu
    have hget := hu
    rw [hmemory] at hget
    by_cases hnil : store.aggregate id = []
    · simp [Process.initialized, hnil] at hget
    · simp only [Process.initialized, if_neg hnil, Option.map_some, Option.some.injEq] at hget
      refine ⟨hu, ⟨0, ?_⟩, by rw [hstore]; exact hstreams id, by rw [hstore]; exact hnil⟩
      rw [hstore, ← hget]
      exact ofSnapshot_viewOf userDomain id 0 (store.aggregate id)

omit [DecidableEq Id] in
theorem Saved.cachedBy (h : Saved s id u) :
    ∃ sk, CachedBy userDomain s.process.store id u sk (s.store.aggregate id) [] [] := by
  obtain ⟨sk, hu⟩ := h.replay
  refine ⟨sk, hu, (List.append_nil _).symm, ?_⟩
  rw [List.append_nil]
  exact h.history

omit [DecidableEq Id] in
theorem Saved.congr (h : Saved s id u) (hcached : s'.memory.find id = s.memory.find id)
    (hstream : s'.store.aggregate id = s.store.aggregate id) : Saved s' id u := by
  obtain ⟨hu, hreplay, hhist, hne⟩ := h
  rw [← hstream] at hreplay hhist hne
  exact ⟨hcached.trans hu, hreplay, hhist, hne⟩

theorem Service.Clean.directory_of_saved (h : s.Clean) (hsaved : Saved s id u) :
    s.directory id = some (u.state, (s.store.aggregate id).length) := by
  obtain ⟨sk, hu⟩ := hsaved.replay
  have hstate : (viewOf userDomain 0 (s.store.aggregate id)).state = u.state := by
    rw [hu]
    simp [viewOf, built]
  rw [Service.directory, replayed_eq h.streams, if_neg hsaved.nonempty, Option.map_some, hstate]

theorem Service.Clean.directory_of_none (h : s.Clean) (hnone : s.memory.find id = none) :
    s.directory id = none := by
  rw [Service.directory, replayed_eq h.streams, if_pos (h.absent id hnone), Option.map_none]

/-- What is counted is what the stream has. -/
theorem Service.Clean.length_eq (h : s.Clean) (id : Id) :
    (s.store.aggregate id).length = ((s.directory id).map Prod.snd).getD 0 := by
  rw [Service.directory, replayed_eq h.streams]
  by_cases hnil : s.store.aggregate id = []
  · rw [if_pos hnil, hnil]
    rfl
  · rw [if_neg hnil]
    rfl

/-- One user changes, and is saved. -/
theorem Service.Clean.update (h : s.Clean)
    (haggregate : ∀ id', id' ≠ id → s'.store.aggregate id' = s.store.aggregate id')
    (hmemory : ∀ id', id' ≠ id → s'.memory.find id' = s.memory.find id')
    (hsaved : Saved s' id u) :
    s'.Clean ∧ s'.directory =
      Function.update s.directory id (some (u.state, (s'.store.aggregate id).length)) := by
  have hclean : s'.Clean := by
    refine ⟨fun id' => ?_, fun id' hnone => ?_, fun id' u' hu' => ?_⟩
    · by_cases hid : id' = id
      · rw [hid]
        exact hsaved.history
      · rw [haggregate id' hid]
        exact h.streams id'
    · by_cases hid : id' = id
      · rw [hid, hsaved.cached] at hnone
        cases hnone
      · rw [hmemory id' hid] at hnone
        rw [haggregate id' hid]
        exact h.absent id' hnone
    · by_cases hid : id' = id
      · subst hid
        obtain rfl := Option.some.inj (hsaved.cached.symm.trans hu')
        exact hsaved
      · rw [hmemory id' hid] at hu'
        exact (h.present id' u' hu').congr (hmemory id' hid) (haggregate id' hid)
  refine ⟨hclean, funext fun id' => ?_⟩
  by_cases hid : id' = id
  · rw [hid, Function.update_self]
    exact hclean.directory_of_saved hsaved
  · rw [Function.update_of_ne hid]
    simp only [Service.directory, replayed, haggregate id' hid]

/-- A save of a cached or new object in which nothing fails. -/
theorem Service.save_healthy (hrange : s.InRange) (hhealthy : inv.Healthy) {sk : Int32}
    {loaded changes : List (AggregateEvent Id UserEvent)}
    (hby : CachedBy userDomain s.process.store id u sk loaded [] changes)
    (hne : loaded ++ changes ≠ []) :
    (s.save inv u).1 = true ∧ Saved (s.save inv u).2.1 id (s.save inv u).2.2 ∧
      (s.save inv u).2.1.store.aggregate id = loaded ++ changes ∧
      (∀ id', id' ≠ id → (s.save inv u).2.1.store.aggregate id' = s.store.aggregate id') ∧
      ∀ id', id' ≠ id → (s.save inv u).2.1.memory.find id' = s.memory.find id' := by
  have hshort : (s.process.store.aggregate id).length < 2 ^ 31 - 1 := Nat.lt_of_succ_lt (hrange id)
  obtain ⟨hprocess, -, hsaves⟩ := s.save_process inv u
  have hreturns : (s.save inv u).1 = true := by
    rw [hsaves, hby.saves_iff hshort]
    refine ⟨rfl, ⟨hhealthy _, hhealthy _⟩, ?_, hhealthy _⟩
    rintro (hlate | ⟨g, -, hlate⟩)
    · rw [hhealthy] at hlate
      cases hlate
    · rw [hhealthy] at hlate
      cases hlate
  obtain ⟨hsaved, hstream⟩ := save_saved hby hne hshort hreturns
  have hkept := hby.kept hshort aggregateType inv.drop inv.fails
  rw [← hprocess] at hkept
  exact ⟨hreturns, hsaved, hstream, hkept.aggregate, hkept.memory⟩

omit [DecidableEq Id] in
theorem changeEntry_eq (u : User Id) (e : UserEvent) (n : Nat) :
    changeEntry e (u.state, n) = (u.state.apply e, n + (u.events e).length) := by
  unfold changeEntry User.events
  by_cases hsame : u.state.apply e = u.state
  · simp [hsame]
  · simp [hsame]

/-- A handler that changes a cached user. -/
theorem Service.Clean.changeUser [ToString Id] (h : s.Clean) (hrange : s.InRange)
    (hhealthy : inv.Healthy) (hfind : s.memory.find id = some u) (e : UserEvent) :
    (s.changeUser inv id fun u => u.change (u.state.apply e = u.state) e).2.Clean ∧
      (s.changeUser inv id fun u => u.change (u.state.apply e = u.state) e).1 =
        .ok (.user ((u.state.apply e).toDto id)) ∧
      (s.changeUser inv id fun u => u.change (u.state.apply e = u.state) e).2.directory =
        Function.update s.directory id ((s.directory id).map (changeEntry e)) := by
  have hsaved := h.present id u hfind
  obtain ⟨sk, hby⟩ := hsaved.cachedBy
  obtain ⟨raised, u', htypes, hraise, hby'⟩ := hby.raiseAll (u.events e)
  rw [← User.change_eq_raiseAll] at hraise
  have hcount : raised.length = (u.events e).length := by
    simpa using congrArg List.length htypes
  have huser : u.id = id := congrArg Aggregate.id hby.object
  obtain ⟨hid', hstate⟩ := User.change_state hraise
  obtain ⟨hid, hsavedState⟩ := s.save_object inv u'
  obtain ⟨hreturns, hsaved', hstream, haggregate, hmemory⟩ :=
    save_healthy hrange hhealthy hby' (List.append_ne_nil_of_left_ne_nil hsaved.nonempty _)
  rw [changeUser_returned hfind hraise, if_pos hreturns]
  generalize hs' : (s.save inv u').2.1.mutate id (s.save inv u').2.2 = s'
  have hstore : s'.store = (s.save inv u').2.1.store := by rw [← hs']; rfl
  have hfinds : s'.memory.find =
      Function.update (s.save inv u').2.1.memory.find id (some (s.save inv u').2.2) := by
    rw [← hs']
    rfl
  have hsaved'' : Saved s' id (s.save inv u').2.2 := by
    rw [← hs']
    exact hsaved'.mutate
  rw [← hstore] at haggregate hstream
  obtain ⟨hclean, hdirectory⟩ := h.update haggregate
    (fun id' hne => by rw [hfinds, Function.update_of_ne hne, hmemory id' hne]) hsaved''
  refine ⟨hclean, ?_, ?_⟩
  · show Except.ok (Reply.user ((s.save inv u').2.2.state.toDto (s.save inv u').2.2.id)) = _
    rw [hsavedState, hstate, hid, hid', huser]
  · rw [hdirectory, h.directory_of_saved hsaved, Option.map_some, changeEntry_eq,
      hsavedState, hstate, hstream, List.length_append, List.nil_append, hcount]

/-- `CreateUser`. -/
theorem Service.Clean.createUser (h : s.Clean) (hrange : s.InRange) (hhealthy : inv.Healthy)
    (hfresh : s.Fresh inv.newGuid) (firstName lastName : Option String) (age : Int64) :
    (s.createUser inv firstName lastName age).2.Clean ∧
      (s.createUser inv firstName lastName age).1 =
        .ok (.user ⟨inv.newGuid, firstName, lastName, age.toInt32⟩) ∧
      (s.createUser inv firstName lastName age).2.directory =
        Function.update s.directory inv.newGuid
          (some (⟨firstName, lastName, age.toInt32⟩, 1)) := by
  obtain ⟨e, u, hcreate, hid', hstate, hby⟩ :=
    User.create_built inv.newGuid inv.shardKey firstName lastName age.toInt32
  obtain ⟨hid, hsavedState⟩ := s.save_object inv u
  obtain ⟨hreturns, hsaved, hstream, haggregate, hmemory⟩ :=
    save_healthy hrange hhealthy (hby s.process.store hfresh.2) (List.cons_ne_nil e _)
  obtain ⟨hclean, hdirectory⟩ := h.update haggregate hmemory hsaved
  rw [createUser_returned hcreate, if_pos hreturns]
  refine ⟨hclean, ?_, ?_⟩
  · show Except.ok (Reply.user ((s.save inv u).2.2.state.toDto (s.save inv u).2.2.id)) = _
    rw [hsavedState, hstate, hid, hid']
    rfl
  · rw [hdirectory, hsavedState, hstate, hstream]
    rfl

/-- `Get` lists every user once. -/
theorem Service.Clean.get (h : s.Clean) :
    ∃ dtos, s.get = .ok (.users dtos) ∧ (dtos.map UserDto.id).Nodup ∧
      ∀ dto, dto ∈ dtos ↔ ∃ n, s.directory dto.id = some (dto.state, n) := by
  have hkey : ∀ id u, s.memory.find id = some u → u.id = id := by
    intro id u hu
    obtain ⟨sk, hu'⟩ := (h.present id u hu).replay
    exact congrArg Aggregate.id hu'
  refine ⟨_, rfl, ?_, fun dto => ?_⟩
  · rw [List.map_map]
    exact Dictionary.nodup_map_values hkey
  · rw [List.mem_map]
    refine ⟨?_, ?_⟩
    · rintro ⟨u, hu, rfl⟩
      obtain ⟨id, hid⟩ := Dictionary.mem_values.mp hu
      have heq : u.toDto.id = id := hkey id u hid
      rw [heq]
      exact ⟨_, h.directory_of_saved (h.present id u hid)⟩
    · rintro ⟨n, hn⟩
      cases hfind : s.memory.find dto.id with
      | none =>
          rw [h.directory_of_none hfind] at hn
          cases hn
      | some u =>
          rw [h.directory_of_saved (h.present _ u hfind)] at hn
          have hstate : u.state = dto.state := congrArg Prod.fst (Option.some.inj hn)
          refine ⟨u, Dictionary.mem_values.mpr ⟨_, hfind⟩, ?_⟩
          calc u.toDto = u.state.toDto u.id := rfl
            _ = dto := by
              rw [hstate, hkey _ u hfind]
              rfl

/-- **One call** in which nothing fails: the answer and the new directory are those of the
    directory, and the service stays clean. -/
theorem Service.Clean.step [ToString Id] (h : s.Clean) (hrange : s.InRange)
    (hhealthy : inv.Healthy) (hstep : s.step inv = some s') :
    s'.Clean ∧ s.directory.Answers inv (s.handle inv).1 ∧
      s'.directory = s.directory.next inv := by
  unfold Service.step at hstep
  split at hstep
  case isFalse => cases hstep
  rename_i hfresh
  obtain rfl := Option.some.inj hstep
  cases hevent : inv.call.event with
  | some p =>
      obtain ⟨id, e⟩ := p
      rw [handle_of_event hevent, Directory.answers_of_event hevent,
        Directory.next_of_event hevent]
      cases hfind : s.memory.find id with
      | none =>
          rw [changeUser_none hfind, h.directory_of_none hfind]
          refine ⟨h, rfl, ?_⟩
          rw [Option.map_none, ← h.directory_of_none hfind, Function.update_eq_self]
      | some u =>
          obtain ⟨hclean, hanswer, hdirectory⟩ := h.changeUser hrange hhealthy hfind e
          refine ⟨hclean, ?_, hdirectory⟩
          rw [hanswer, h.directory_of_saved (h.present id u hfind)]
  | none =>
      unfold Directory.next Invocation.effect Directory.Answers handle
      cases hcall : inv.call with
      | get => exact ⟨h, h.get, rfl⟩
      | throwException aggregateId => exact ⟨h, rfl, rfl⟩
      | createUser firstName lastName age =>
          exact h.createUser hrange hhealthy hfresh firstName lastName age
      | changeUserFirstName aggregateId firstName => simp [hcall, Call.event] at hevent
      | changeUserLastName aggregateId lastName => simp [hcall, Call.event] at hevent
      | changeUserAge aggregateId age => simp [hcall, Call.event] at hevent

/-- **The service is a directory of users.** In every run in which no call inside `Save`
    throws, from a service that is initialized over healthy streams: every call is answered as
    the directory that the store replays to answers it, and what the store replays to at the
    end is the directory after the same calls. -/
theorem refines_directory [ToString Id] {s₀ : Service Id} {store : Store Id UserEvent}
    {invs : List (Invocation Id)} (hinit : s₀.process = Process.initialized userDomain store)
    (hstreams : ∀ id, History id (store.aggregate id))
    (halong : Transition.Along Service.step (fun s inv => s.InRange ∧ inv.Healthy) s₀ invs)
    (hrun : Transition.run Service.step s₀ invs = some s) :
    s.directory = invs.foldl Directory.next s₀.directory ∧
      Transition.Along Service.step (fun s inv => s.directory.Answers inv (s.handle inv).1)
        s₀ invs := by
  have hclean := Service.clean_initialized hinit hstreams
  clear hinit
  induction invs generalizing s₀ with
  | nil =>
      cases hrun
      exact ⟨rfl, trivial⟩
  | cons inv invs ih =>
      obtain ⟨t, ht, hrun⟩ := Transition.run_cons_eq_some.mp hrun
      obtain ⟨⟨hrange, hhealthy⟩, hrest⟩ := (Transition.along_cons ht).mp halong
      obtain ⟨hclean', hanswers, hdirectory⟩ := hclean.step hrange hhealthy ht
      obtain ⟨hlast, hall⟩ := ih hrest hrun hclean'
      exact ⟨by rw [hlast, hdirectory, List.foldl_cons],
        (Transition.along_cons ht).mpr ⟨hanswers, hall⟩⟩

end Refinement

/-- A user is created and grows older, and nobody else does. -/
def birthday : List (Invocation Nat) :=
  [⟨.createUser (some "A") none 30, 7, 41, fun _ => false, false⟩,
    ⟨.changeUserAge 7 31, 8, 0, fun _ => false, false⟩,
    ⟨.changeUserAge 8 31, 9, 0, fun _ => false, false⟩]

theorem refines_directory_birthday :
    ∃ s, Transition.run Service.step noUserService birthday = some s ∧
      s.directory 7 = some (⟨some "A", none, 31⟩, 2) ∧ s.directory 8 = none := by
  have hrun : Transition.run Service.step noUserService birthday = some _ := rfl
  have halong : Transition.Along Service.step (fun s inv => s.InRange ∧ inv.Healthy)
      noUserService birthday := by
    refine (Transition.along_cons rfl).mpr ⟨⟨fun id => ?_, fun _ => rfl⟩,
      (Transition.along_cons rfl).mpr ⟨⟨fun id => ?_, fun _ => rfl⟩,
        (Transition.along_cons rfl).mpr ⟨⟨fun id => ?_, fun _ => rfl⟩, trivial⟩⟩⟩
    · simp [noUserService, Store.empty]
    · show (Function.update (fun _ => []) 7 _ id).length + 1 < _
      by_cases hid : id = 7
      · subst hid
        decide
      · rw [Function.update_of_ne hid]
        decide
    · show (Function.update (Function.update (fun _ => []) 7 _) 7 _ id).length + 1 < _
      by_cases hid : id = 7
      · subst hid
        decide
      · rw [Function.update_of_ne hid, Function.update_of_ne hid]
        decide
  obtain ⟨hdirectory, -⟩ :=
    refines_directory process_noUserService (fun _ => History.nil) halong hrun
  exact ⟨_, hrun, by rw [hdirectory]; rfl, by rw [hdirectory]; rfl⟩

end Milde.UserManagement
