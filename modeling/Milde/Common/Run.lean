/-
  Milde.Common.Run

  Runs of an executable labelled transition system `step : σ → α → Option σ`.
  A label carries every choice of the environment, so a run is a list of labels
  and a label that is not enabled yields `none`.

  Four notions are developed, with one induction each:

    * `run`    — the state a list of labels leads to;
    * `Always` — a property of every state a run visits;
    * `Along`  — a condition on every step a run takes (its state and its label);
    * `gather` — what the steps of a run yield.

  `always_iff_along` is the shape of an exact safety condition: the property
  holds in every visited state iff every step meets the condition.
-/
import Mathlib.Data.Option.Basic
import Mathlib.Data.List.Basic

namespace Transition

variable {σ α : Type _}

/-- Run a list of labels from `s`; `none` when one of them is not enabled. -/
def run (step : σ → α → Option σ) : σ → List α → Option σ
  | s, [] => some s
  | s, a :: ls => (step s a).bind fun t => run step t ls

/-- Every state visited from `s` along the labels satisfies `P`. -/
def Always (step : σ → α → Option σ) (P : σ → Prop) : σ → List α → Prop
  | s, [] => P s
  | s, a :: ls => P s ∧ ∀ t, step s a = some t → Always step P t ls

/-- Every step taken from `s` along the labels meets the condition `C`. -/
def Along (step : σ → α → Option σ) (C : σ → α → Prop) : σ → List α → Prop
  | _, [] => True
  | s, a :: ls => C s a ∧ ∀ t, step s a = some t → Along step C t ls

/-- The states that some run from `init` reaches. -/
def Reachable (step : σ → α → Option σ) (init t : σ) : Prop :=
  ∃ ls, run step init ls = some t

variable {step : σ → α → Option σ} {C : σ → α → Prop} {I P : σ → Prop}

@[simp] theorem run_nil (s : σ) : run step s [] = some s := rfl

/-- A run of a non-empty list takes its first step and runs on. -/
theorem run_cons_eq_some {s t : σ} {a : α} {ls : List α} :
    run step s (a :: ls) = some t ↔ ∃ u, step s a = some u ∧ run step u ls = some t := by
  simp only [run, Option.bind_eq_some_iff]

theorem run_append (s : σ) (l₁ l₂ : List α) :
    run step s (l₁ ++ l₂) = (run step s l₁).bind fun t => run step t l₂ := by
  induction l₁ generalizing s with
  | nil => simp
  | cons a l₁ ih =>
      cases h : step s a with
      | none => simp [run, h]
      | some u => simp [run, h, ih u]

/-- Runs compose. -/
theorem run_trans {s t u : σ} {l₁ l₂ : List α} (h₁ : run step s l₁ = some t)
    (h₂ : run step t l₂ = some u) : run step s (l₁ ++ l₂) = some u := by
  rw [run_append, h₁]
  exact h₂

theorem run_single {s t : σ} {a : α} (h : step s a = some t) : run step s [a] = some t := by
  simp [run, h]

-- ============================================================================
-- Invariants
-- ============================================================================

/-- What every step preserves holds at the end of a run. -/
theorem run_invariant (hstep : ∀ s a t, I s → step s a = some t → I t) {s t : σ}
    {ls : List α} (hs : I s) (hrun : run step s ls = some t) : I t := by
  induction ls generalizing s with
  | nil =>
      cases hrun
      exact hs
  | cons a ls ih =>
      obtain ⟨u, hu, hrun⟩ := run_cons_eq_some.mp hrun
      exact ih (hstep s a u hs hu) hrun

/-- What every step meeting `C` preserves holds at the end of a run whose steps
    all meet `C`. -/
theorem run_invariant_along (hstep : ∀ s a t, I s → C s a → step s a = some t → I t)
    {s t : σ} {ls : List α} (hs : I s) (hC : Along step C s ls)
    (hrun : run step s ls = some t) : I t := by
  induction ls generalizing s with
  | nil =>
      cases hrun
      exact hs
  | cons a ls ih =>
      obtain ⟨u, hu, hrun⟩ := run_cons_eq_some.mp hrun
      exact ih (hstep s a u hs hC.1 hu) (hC.2 u hu) hrun

/-- What holds initially and is preserved by every step holds in every reachable
    state. -/
theorem Reachable.invariant {init t : σ} (h : Reachable step init t) (h0 : I init)
    (hstep : ∀ s a t, I s → step s a = some t → I t) : I t := by
  obtain ⟨ls, hrun⟩ := h
  exact run_invariant hstep h0 hrun

-- ============================================================================
-- Conditions along a run
-- ============================================================================

/-- A condition holds along a run iff its first step and the rest meet it. -/
theorem along_cons {s t : σ} {a : α} {ls : List α} (h : step s a = some t) :
    Along step C s (a :: ls) ↔ C s a ∧ Along step C t ls := by
  simp only [Along, h, Option.some.injEq]
  refine ⟨?_, ?_⟩
  · rintro ⟨ha, hrest⟩
    exact ⟨ha, hrest t rfl⟩
  · rintro ⟨ha, hrest⟩
    refine ⟨ha, ?_⟩
    rintro u rfl
    exact hrest

/-- A condition that can be tested on a step can be tested along a run. -/
instance Along.decidable [∀ s a, Decidable (C s a)] :
    ∀ (s : σ) (ls : List α), Decidable (Along step C s ls)
  | _, [] => .isTrue trivial
  | s, a :: ls =>
      match h : step s a with
      | none => decidable_of_iff (C s a) (by simp [Along, h])
      | some t =>
          have := Along.decidable t ls
          decidable_of_iff (C s a ∧ Along step C t ls) (along_cons h).symm

/-- A weaker condition holds along the same run. -/
theorem Along.mono {C' : σ → α → Prop} {s : σ} {ls : List α} (h : Along step C s ls)
    (hC : ∀ s a, C s a → C' s a) : Along step C' s ls := by
  induction ls generalizing s with
  | nil => trivial
  | cons a ls ih => exact ⟨hC s a h.1, fun t ht => ih (h.2 t ht)⟩

/-- What holds of every step holds along every run. -/
theorem along_of_forall (h : ∀ s a, C s a) (s : σ) (ls : List α) : Along step C s ls := by
  induction ls generalizing s with
  | nil => trivial
  | cons a ls ih => exact ⟨h s a, fun t _ => ih t⟩

/-- What every label of a list meets in every state holds along its run. -/
theorem along_of_mem {ls : List α} (h : ∀ a ∈ ls, ∀ s, C s a) (s : σ) : Along step C s ls := by
  induction ls generalizing s with
  | nil => trivial
  | cons a ls ih =>
      exact ⟨h a List.mem_cons_self s,
        fun t _ => ih (fun b hb => h b (List.mem_cons_of_mem a hb)) t⟩

theorem Along.and {C' : σ → α → Prop} {s : σ} {ls : List α} (h : Along step C s ls)
    (h' : Along step C' s ls) : Along step (fun s a => C s a ∧ C' s a) s ls := by
  induction ls generalizing s with
  | nil => trivial
  | cons a ls ih => exact ⟨⟨h.1, h'.1⟩, fun t ht => ih (h.2 t ht) (h'.2 t ht)⟩

/-- A condition along a run holds along its first part and along the rest. -/
theorem along_append {s t : σ} {l₁ l₂ : List α} (hrun : run step s l₁ = some t)
    (h : Along step C s (l₁ ++ l₂)) : Along step C s l₁ ∧ Along step C t l₂ := by
  induction l₁ generalizing s with
  | nil =>
      cases hrun
      exact ⟨trivial, h⟩
  | cons a l₁ ih =>
      obtain ⟨u, hu, hrun⟩ := run_cons_eq_some.mp hrun
      obtain ⟨ha, hrest⟩ := (along_cons hu).mp h
      obtain ⟨hfirst, hlast⟩ := ih hrun hrest
      exact ⟨(along_cons hu).mpr ⟨ha, hfirst⟩, hlast⟩

/-- Two systems whose steps agree under a condition take the same runs where it holds. -/
theorem run_rel {τ : Type _} {step' : τ → α → Option τ} {R : σ → τ → Prop}
    (hstep : ∀ s t a, R s t → C s a → Option.Rel R (step s a) (step' t a)) {s : σ} {t : τ}
    {ls : List α} (h : R s t) (hC : Along step C s ls) :
    Option.Rel R (run step s ls) (run step' t ls) := by
  induction ls generalizing s t with
  | nil => exact .some h
  | cons a ls ih =>
      obtain ⟨ha, hrest⟩ := hC
      have hboth := hstep s t a h ha
      rw [run, run]
      cases hs : step s a with
      | none =>
          rw [hs] at hboth
          cases ht : step' t a with
          | none => exact .none
          | some t' =>
              rw [ht] at hboth
              cases hboth
      | some s' =>
          rw [hs] at hboth
          cases ht : step' t a with
          | none =>
              rw [ht] at hboth
              cases hboth
          | some t' =>
              rw [ht] at hboth
              exact ih (Option.rel_some_some.mp hboth) (hrest s' hs)

/-- The first state of a run is visited. -/
theorem Always.head {s : σ} {ls : List α} (h : Always step P s ls) : P s := by
  cases ls with
  | nil => exact h
  | cons a ls => exact h.1

/-- The last state of a run is visited. -/
theorem Always.last {s t : σ} {ls : List α} (h : Always step P s ls)
    (hrun : run step s ls = some t) : P t := by
  induction ls generalizing s with
  | nil =>
      cases hrun
      exact h
  | cons a ls ih =>
      obtain ⟨u, hu, hrun⟩ := run_cons_eq_some.mp hrun
      exact ih (h.2 u hu) hrun

/-- An invariant kept by the steps that meet `C` holds in every state of a run
    whose steps all meet `C`. -/
theorem always_of_along (hstep : ∀ s a t, I s → C s a → step s a = some t → I t)
    (hP : ∀ s, I s → P s) {s : σ} {ls : List α} (hs : I s) (hC : Along step C s ls) :
    Always step P s ls := by
  induction ls generalizing s with
  | nil => exact hP s hs
  | cons a ls ih =>
      exact ⟨hP s hs, fun t ht => ih (hstep s a t hs hC.1 ht) (hC.2 t ht)⟩

/-- Among runs within `R`: when a step breaks `P` exactly if it fails `C`, the property
    holds in every state of a run iff every step of the run meets the condition. -/
theorem always_iff_along {R : σ → α → Prop} (hP : ∀ s, I s → P s)
    (hkeep : ∀ s a t, I s → R s a → C s a → step s a = some t → I t)
    (hbreak : ∀ s a t, I s → R s a → ¬ C s a → step s a = some t → ¬ P t)
    {s t : σ} {ls : List α} (hs : I s) (hR : Along step R s ls) (hrun : run step s ls = some t) :
    Always step P s ls ↔ Along step C s ls := by
  refine ⟨?_, ?_⟩
  · intro h
    induction ls generalizing s with
    | nil => trivial
    | cons a ls ih =>
        obtain ⟨u, hu, hrun⟩ := run_cons_eq_some.mp hrun
        have hC : C s a := by
          by_contra hn
          exact hbreak s a u hs hR.1 hn hu (h.2 u hu).head
        exact (along_cons hu).mpr
          ⟨hC, ih (hkeep s a u hs hR.1 hC hu) (hR.2 u hu) hrun (h.2 u hu)⟩
  · intro h
    exact always_of_along (fun s a t hs hRC ht => hkeep s a t hs hRC.1 hRC.2 ht) hP hs (hR.and h)

/-- When a step that fails `C` does damage that lasts, the property at the end of a
    completed run tells whether every step of the run met the condition. -/
theorem last_iff_along {B E Q : σ → Prop}
    (hkeep : ∀ s a t, I s → C s a → step s a = some t → I t)
    (hbreak : ∀ s a t, I s → ¬ C s a → step s a = some t → B t)
    (hstay : ∀ s a t, B s → step s a = some t → B t)
    (hgood : ∀ s, I s → E s → Q s) (hbad : ∀ s, B s → E s → ¬ Q s)
    {s t : σ} {ls : List α} (hs : I s) (hrun : run step s ls = some t) (hE : E t) :
    Q t ↔ Along step C s ls := by
  refine ⟨fun hQ => ?_, fun h => hgood t (run_invariant_along hkeep hs h hrun) hE⟩
  induction ls generalizing s with
  | nil => trivial
  | cons a ls ih =>
      obtain ⟨u, hu, hrun⟩ := run_cons_eq_some.mp hrun
      have hC : C s a := by
        by_contra hn
        exact hbad t (run_invariant hstay (hbreak s a u hs hn hu) hrun) hE hQ
      exact (along_cons hu).mpr ⟨hC, ih (hkeep s a u hs hC hu) hrun⟩

-- ============================================================================
-- What the steps of a run yield
-- ============================================================================

/-- What `f` gives for the steps of a run, one after the other. -/
def gather {β : Type _} (step : σ → α → Option σ) (f : σ → α → List β) : σ → List α → List β
  | _, [] => []
  | s, a :: ls => f s a ++ ((step s a).map fun t => gather step f t ls).getD []

section Gather

variable {β : Type _} {f : σ → α → List β}

theorem gather_cons {s t : σ} {a : α} {ls : List α} (h : step s a = some t) :
    gather step f s (a :: ls) = f s a ++ gather step f t ls := by
  rw [gather, h, Option.map_some, Option.getD_some]

/-- What every step keeps, with what it yields added, holds with all that the run yields. -/
theorem run_gather {I : σ → List β → Prop}
    (hstep : ∀ s acc a t, I s acc → C s a → step s a = some t → I t (acc ++ f s a))
    {s t : σ} {acc : List β} {ls : List α} (hs : I s acc) (hC : Along step C s ls)
    (hrun : run step s ls = some t) : I t (acc ++ gather step f s ls) := by
  induction ls generalizing s acc with
  | nil =>
      cases hrun
      rw [gather, List.append_nil]
      exact hs
  | cons a ls ih =>
      obtain ⟨u, hu, hrun⟩ := run_cons_eq_some.mp hrun
      obtain ⟨ha, hrest⟩ := (along_cons hu).mp hC
      rw [gather_cons hu, ← List.append_assoc]
      exact ih (hstep s acc a u hs ha hu) hrest hrun

/-- A run does not yield what none of its steps yields. -/
theorem notMem_gather {s t : σ} {ls : List α} (hrun : run step s ls = some t) {b : β} :
    b ∉ gather step f s ls ↔ Along step (fun s a => b ∉ f s a) s ls := by
  induction ls generalizing s with
  | nil => simp [gather, Along]
  | cons a ls ih =>
      obtain ⟨u, hu, hrun⟩ := run_cons_eq_some.mp hrun
      rw [gather_cons hu, List.mem_append, not_or, along_cons hu, ih hrun]

end Gather

end Transition
