/-
  Milde.Common.WaitFor

  Who waits for whom: a relation that grows by one edge when somebody starts to wait.

  As long as nobody starts to wait for one who waits for him, through whatever chain, there
  is no cycle; and in a finite system without a cycle every chain of waits ends at somebody
  who does not wait.
-/
import Mathlib.Data.Fintype.Card
import Mathlib.Logic.Relation

namespace WaitFor

open Relation

variable {α : Type _} {r r' : α → α → Prop} {a b x y : α}

/-- Nobody waits for himself, through whatever chain. -/
def Acyclic (r : α → α → Prop) : Prop := ∀ x, ¬ TransGen r x x

theorem Acyclic.mono (h : Acyclic r) (hsub : ∀ x y, r' x y → r x y) : Acyclic r' :=
  fun x hx => h x (TransGen.mono hsub x x hx)

/-- A chain with one more edge goes through it or does without it. -/
theorem transGen_of_edge (hsub : ∀ x y, r' x y → r x y ∨ x = a ∧ y = b) (h : TransGen r' x y) :
    TransGen r x y ∨ ReflTransGen r x a ∧ ReflTransGen r b y := by
  induction h with
  | single hxy =>
      rcases hsub _ _ hxy with hr | ⟨rfl, rfl⟩
      · exact Or.inl (TransGen.single hr)
      · exact Or.inr ⟨ReflTransGen.refl, ReflTransGen.refl⟩
  | tail _ hyz ih =>
      rcases hsub _ _ hyz with hr | ⟨rfl, rfl⟩
      · rcases ih with hxy | ⟨hxa, hby⟩
        · exact Or.inl (hxy.tail hr)
        · exact Or.inr ⟨hxa, hby.tail hr⟩
      · rcases ih with hxy | ⟨hxa, -⟩
        · exact Or.inr ⟨hxy.to_reflTransGen, ReflTransGen.refl⟩
        · exact Or.inr ⟨hxa, ReflTransGen.refl⟩

/-- An edge to one from whom no chain leads back. -/
theorem Acyclic.of_edge (h : Acyclic r) (hsub : ∀ x y, r' x y → r x y ∨ x = a ∧ y = b)
    (hback : ¬ ReflTransGen r b a) : Acyclic r' := by
  intro x hx
  rcases transGen_of_edge hsub hx with hcycle | ⟨hxa, hbx⟩
  · exact h x hcycle
  · exact hback (hbx.trans hxa)

/-- Who waits for one who waits goes on waiting: a cycle stays. -/
theorem transGen_stays (hstays : ∀ x y, r x y → (∃ z, r y z) → r' x y) (h : TransGen r x y)
    (hy : ∃ z, r y z) : TransGen r' x y := by
  induction h using TransGen.head_induction_on with
  | single hxy => exact TransGen.single (hstays _ _ hxy hy)
  | head hxz hzy ih =>
      obtain ⟨w, hzw, -⟩ := TransGen.head'_iff.mp hzy
      exact TransGen.head (hstays _ _ hxz ⟨w, hzw⟩) ih

theorem cycle_stays (hstays : ∀ x y, r x y → (∃ z, r y z) → r' x y) (h : ¬ Acyclic r) :
    ¬ Acyclic r' := by
  obtain ⟨x, hx⟩ := not_forall.mp h
  have hx := not_not.mp hx
  obtain ⟨y, hxy, -⟩ := TransGen.head'_iff.mp hx
  exact fun h' => h' x (transGen_stays hstays hx ⟨y, hxy⟩)

/-- In a finite system without a cycle, every chain of waits ends. -/
theorem Acyclic.exists_end [Finite α] (h : Acyclic r) (x : α) :
    ∃ y, ReflTransGen r x y ∧ ∀ z, ¬ r y z := by
  have hwf : WellFounded fun x y => TransGen r y x := by
    have : IsTrans α fun x y => TransGen r y x := ⟨fun _ _ _ hyx hzy => hzy.trans hyx⟩
    have : Std.Irrefl fun x y => TransGen r y x := ⟨h⟩
    exact Finite.wellFounded_of_trans_of_irrefl _
  induction x using hwf.induction with
  | h x ih =>
      by_cases hend : ∀ z, ¬ r x z
      · exact ⟨x, ReflTransGen.refl, hend⟩
      · obtain ⟨z, hz⟩ := not_forall.mp hend
        have hxz := not_not.mp hz
        obtain ⟨y, hzy, hy⟩ := ih z (TransGen.single hxz)
        exact ⟨y, ReflTransGen.head hxz hzy, hy⟩

end WaitFor
