/-
  Milde.Common.SequentialLog

  Requests served one after the other: `serve` gives for a state and a request the next
  state and the answer, and a log lists the requests in the order in which they were served.

  A history of concurrent calls is explained by a log when every answer is the answer to its
  request at its place in the log, and when the order of the log agrees with real time.
-/
import Mathlib.Data.List.Basic

namespace SequentialLog

variable {σ Q R : Type _}

/-- The state after the requests of a log. -/
def replay (serve : σ → Q → σ × R) (start : σ) (log : List Q) : σ :=
  log.foldl (fun state q => (serve state q).1) start

/-- The answer to a request at its place in a log. -/
def Answered (serve : σ → Q → σ × R) (start : σ) (log : List Q) (q : Q) (answer : R) : Prop :=
  ∃ before after, log = before ++ q :: after ∧
    (serve (replay serve start before) q).2 = answer

/-- One request stands before another in a log. -/
def Precedes (log : List Q) (q q' : Q) : Prop :=
  ∃ first between last, log = first ++ q :: (between ++ q' :: last)

/-- The state in which a request of a log is served is always one in which `C` holds. -/
def ServedIn (serve : σ → Q → σ × R) (start : σ) (C : σ → Prop) (log : List Q) : Prop :=
  ∀ before q after, log = before ++ q :: after → C (replay serve start before)

variable {serve : σ → Q → σ × R} {start : σ} {log : List Q} {q q' : Q} {answer : R}
  {C : σ → Prop}

@[simp] theorem replay_nil : replay serve start [] = start := rfl

@[simp] theorem replay_append_singleton :
    replay serve start (log ++ [q]) = (serve (replay serve start log) q).1 := by
  simp [replay]

/-- The request that is served last is answered in the state before it. -/
theorem answered_last :
    Answered serve start (log ++ [q]) q (serve (replay serve start log) q).2 :=
  ⟨log, [], rfl, rfl⟩

/-- Answers stay what they are while the log grows. -/
theorem Answered.append (h : Answered serve start log q answer) (later : List Q) :
    Answered serve start (log ++ later) q answer := by
  obtain ⟨before, after, rfl, hanswer⟩ := h
  exact ⟨before, after ++ later, by simp, hanswer⟩

theorem Answered.mem (h : Answered serve start log q answer) : q ∈ log := by
  obtain ⟨before, after, rfl, -⟩ := h
  simp

theorem servedIn_nil : ServedIn serve start C [] := by
  intro before q after heq
  cases before <;> cases heq

theorem ServedIn.of_append {later : List Q} (h : ServedIn serve start C (log ++ later)) :
    ServedIn serve start C log := by
  rintro before q after rfl
  exact h before q (after ++ later) (by simp)

/-- One more request is served. -/
theorem servedIn_append_singleton :
    ServedIn serve start C (log ++ [q]) ↔
      ServedIn serve start C log ∧ C (replay serve start log) := by
  refine ⟨fun h => ⟨h.of_append, h log q [] rfl⟩, ?_⟩
  · rintro ⟨h, hlast⟩ before q' after heq
    rcases List.eq_nil_or_concat after with rfl | ⟨after, q'', rfl⟩
    · obtain ⟨rfl, -⟩ := List.append_inj' heq rfl
      exact hlast
    · have heq : log ++ [q] = (before ++ q' :: after) ++ [q''] := by
        rw [heq]
        simp
      obtain ⟨rfl, -⟩ := List.append_inj' heq rfl
      exact h before q' after rfl

/-- What was in the log precedes what has been added to it. -/
theorem precedes_of_mem {later : List Q} (h : q ∈ log) (h' : q' ∈ later) :
    Precedes (log ++ later) q q' := by
  obtain ⟨first, between, rfl⟩ := List.append_of_mem h
  obtain ⟨between', last, rfl⟩ := List.append_of_mem h'
  exact ⟨first, between ++ between', last, by simp⟩

-- ============================================================================
-- Requests that stand for others
-- ============================================================================

section Map

variable {E R' : Type _} {serve' : σ → E → σ × R'} {f : E → Q}

/-- Serving what stands for the entries of a log leads where serving the entries leads. -/
theorem replay_map (h : ∀ state e, (serve state (f e)).1 = (serve' state e).1)
    (entries : List E) :
    replay serve start (entries.map f) = replay serve' start entries := by
  simp only [replay, List.foldl_map, h]

theorem servedIn_map (h : ∀ state e, (serve state (f e)).1 = (serve' state e).1)
    {entries : List E} :
    ServedIn serve start C (entries.map f) ↔ ServedIn serve' start C entries := by
  refine ⟨?_, ?_⟩
  · rintro hlog before e after rfl
    rw [← replay_map h]
    exact hlog (before.map f) (f e) (after.map f) (by simp)
  · intro hlog before q after heq
    obtain ⟨first, rest, rfl, rfl, hrest⟩ := List.map_eq_append_iff.mp heq
    obtain ⟨e, last, rfl, rfl, rfl⟩ := List.map_eq_cons_iff.mp hrest
    rw [replay_map h]
    exact hlog first e last rfl

/-- What is answered is answered in a state that serving the entries leads to. -/
theorem Answered.of_map (h : ∀ state e, (serve state (f e)).1 = (serve' state e).1)
    {entries : List E} (hanswered : Answered serve start (entries.map f) q answer) :
    ∃ e state, f e = q ∧ (serve state (f e)).2 = answer ∧
      Answered serve' start entries e (serve' state e).2 := by
  obtain ⟨before, after, heq, rfl⟩ := hanswered
  obtain ⟨first, rest, rfl, rfl, hrest⟩ := List.map_eq_append_iff.mp heq
  obtain ⟨e, last, rfl, rfl, rfl⟩ := List.map_eq_cons_iff.mp hrest
  refine ⟨e, replay serve' start first, rfl, ?_, first, last, rfl, rfl⟩
  rw [replay_map h]

end Map

end SequentialLog
