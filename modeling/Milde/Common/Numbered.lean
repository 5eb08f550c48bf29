/-
  Milde.Common.Numbered

  Lists whose entries carry consecutive numbers.

  `Numbered key num start l` says that the entries of `l` carry, under `key`, the
  numbers `num start, num (start + 1), …` in this order.  The numbering `num` is a
  parameter because a program's counters are machine integers: `Int32.ofNat`
  numbers a list of any length and is injective only below its range.
-/
import Mathlib.Data.List.Basic
import Mathlib.Data.List.Range
import Mathlib.Data.List.Sort

variable {α β : Type _}

/-- The entries of `l` are numbered consecutively from `start`. -/
def Numbered (key : α → β) (num : Nat → β) (start : Nat) (l : List α) : Prop :=
  l.map key = (List.range' start l.length).map num

namespace Numbered

variable {key : α → β} {num : Nat → β} {start : Nat} {l m : List α} {a : α}

theorem nil : Numbered key num start [] := rfl

theorem cons_iff : Numbered key num start (a :: l) ↔
    key a = num start ∧ Numbered key num (start + 1) l := by
  simp [Numbered, List.range'_succ]

theorem append_iff : Numbered key num start (l ++ m) ↔
    Numbered key num start l ∧ Numbered key num (start + l.length) m := by
  induction l generalizing start with
  | nil => simp [nil]
  | cons a l ih =>
      simp only [List.cons_append, cons_iff, ih, List.length_cons, and_assoc]
      rw [show start + 1 + l.length = start + (l.length + 1) by omega]

theorem singleton_iff : Numbered key num start [a] ↔ key a = num start := by
  simp [cons_iff, nil]

/-- A prefix of a numbered list is numbered. -/
theorem of_isPrefix (h : Numbered key num start m) (hl : l <+: m) :
    Numbered key num start l := by
  obtain ⟨t, rfl⟩ := hl
  exact (append_iff.mp h).1

/-- Every entry carries a number of the range. -/
theorem exists_key (h : Numbered key num start l) (ha : a ∈ l) :
    ∃ i, start ≤ i ∧ i < start + l.length ∧ key a = num i := by
  induction l generalizing start with
  | nil => cases ha
  | cons b l ih =>
      obtain ⟨hb, hl⟩ := cons_iff.mp h
      simp only [List.length_cons]
      rcases List.mem_cons.mp ha with rfl | ha
      · exact ⟨start, le_refl _, by omega, hb⟩
      · obtain ⟨i, h1, h2, h3⟩ := ih hl ha
        exact ⟨i, by omega, by omega, h3⟩

/-- Renumbering by a map of the numbers. -/
theorem map {γ : Type _} {num' : Nat → γ} (f : β → γ)
    (hf : ∀ i, start ≤ i → i < start + l.length → f (num i) = num' i)
    (h : Numbered key num start l) : Numbered (fun a => f (key a)) num' start l := by
  induction l generalizing start with
  | nil => exact nil
  | cons a l ih =>
      simp only [List.length_cons] at hf
      obtain ⟨ha, hl⟩ := cons_iff.mp h
      refine cons_iff.mpr ⟨by rw [ha]; exact hf start (by omega) (by omega), ih ?_ hl⟩
      exact fun i h1 h2 => hf i (by omega) (by omega)

/-- A list numbered by a function increasing on its range is sorted by the key. -/
theorem pairwise (le : β → β → Prop)
    (hle : ∀ i j, start ≤ i → i ≤ j → j < start + l.length → le (num i) (num j))
    (h : Numbered key num start l) : l.Pairwise fun a b => le (key a) (key b) := by
  induction l generalizing start with
  | nil => exact List.Pairwise.nil
  | cons a l ih =>
      simp only [List.length_cons] at hle
      obtain ⟨ha, hl⟩ := cons_iff.mp h
      refine List.Pairwise.cons ?_ (ih (fun i j h1 h2 h3 => hle i j (by omega) h2 (by omega)) hl)
      intro b hb
      obtain ⟨i, h1, h2, h3⟩ := hl.exists_key hb
      rw [ha, h3]
      exact hle start i (le_refl _) (by omega) (by omega)

section Order

variable [PartialOrder β]

/-- A list sorted by its keys is numbered iff its keys are the numbers in some order. -/
theorem iff_perm (hnum : ∀ i j, i < j → num i < num j) (hl : l.Pairwise fun a b => key a ≤ key b) :
    Numbered key num start l ↔ (l.map key).Perm ((List.range' start l.length).map num) := by
  refine ⟨fun h => List.Perm.of_eq h, fun h => ?_⟩
  have hnumbers : ((List.range' start l.length).map num).Pairwise (· ≤ ·) := by
    rw [List.pairwise_map]
    exact (List.pairwise_lt_range' 1).imp fun hij => (hnum _ _ hij).le
  have hkeys : (l.map key).Pairwise (· ≤ ·) := List.pairwise_map.mpr hl
  exact h.eq_of_pairwise (fun a b _ _ => le_antisymm) hkeys hnumbers

/-- A numbered list is determined by its entries. -/
theorem eq_of_perm (hnum : ∀ i j, i < j → num i < num j) (hl : Numbered key num start l)
    (hm : Numbered key num start m) (h : l.Perm m) : l = m := by
  have hsorted : ∀ {l : List α}, Numbered key num start l →
      l.Pairwise fun a b => key a < key b := by
    intro l hl
    rw [← List.pairwise_map (R := (· < ·)), hl, List.pairwise_map]
    exact (List.pairwise_lt_range' 1).imp fun hij => hnum _ _ hij
  exact h.eq_of_pairwise (fun a b _ _ hab hba => absurd hab (lt_asymm hba))
    (hsorted hl) (hsorted hm)

end Order

end Numbered
