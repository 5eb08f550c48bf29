/-
  Milde.Common.Lists

  Facts about the places of a list: what replacing or removing one entry does to a sum or
  a count over the list, what it means that an entry counts more than once or is the only
  one of its kind, where the entries are of a list that has grown by one or had one
  replaced, when a list is the beginning of a sorted one, and what a map holds that the
  entries have been written into.
-/
import Mathlib.Algebra.BigOperators.Group.List.Basic
import Mathlib.Algebra.Ring.Int.Defs
import Mathlib.Algebra.Ring.Nat
import Mathlib.Data.List.NodupEquivFin
import Mathlib.Data.List.Perm.Basic
import Mathlib.Logic.Function.Basic

namespace List

variable {α : Type _}

/-- Replacing an entry exchanges its summand. -/
theorem sum_map_set {M : Type _} [AddCommMonoid M] (f : α → M) {l : List α} {i : Nat} {x : α}
    (y : α) (h : l[i]? = some x) : ((l.set i y).map f).sum + f x = (l.map f).sum + f y := by
  induction l generalizing i with
  | nil => simp at h
  | cons z l ih =>
      cases i with
      | zero =>
          obtain rfl : z = x := by simpa using h
          simp only [List.set_cons_zero, List.map_cons, List.sum_cons]
          rw [add_comm, ← add_assoc, add_right_comm]
      | succ i =>
          simp only [List.set_cons_succ, List.map_cons, List.sum_cons]
          rw [add_assoc, ih (by simpa using h), ← add_assoc]

theorem countP_set_add {p : α → Bool} {l : List α} {i : Nat} {x : α} (y : α)
    (h : l[i]? = some x) :
    (l.set i y).countP p + (if p x then 1 else 0) = l.countP p + (if p y then 1 else 0) := by
  obtain ⟨hi, rfl⟩ := List.getElem?_eq_some_iff.mp h
  have hle := List.boole_getElem_le_countP (p := p) hi
  rw [List.countP_set hi]
  omega

theorem countP_eraseIdx_add {p : α → Bool} {l : List α} {i : Nat} {x : α} (h : l[i]? = some x) :
    (l.eraseIdx i).countP p + (if p x then 1 else 0) = l.countP p := by
  obtain ⟨hi, rfl⟩ := List.getElem?_eq_some_iff.mp h
  rw [← (List.getElem_cons_eraseIdx_perm hi).countP_eq, List.countP_cons]

/-- Of lists without duplicates, joined, an entry counts once for each list that has it. -/
theorem count_flatMap_of_nodup {β : Type _} [BEq β] [LawfulBEq β] {f : α → List β} (l : List α)
    (hf : ∀ a, (f a).Nodup) (b : β) : (l.flatMap f).count b = l.countP fun a => b ∈ f a := by
  induction l with
  | nil => rfl
  | cons a l ih =>
      rw [List.flatMap_cons, List.count_append, ih, (hf a).count, List.countP_cons, Nat.add_comm]
      simp only [decide_eq_true_eq]

/-- An entry counts more than once iff it stands at two places. -/
theorem one_lt_count_iff [DecidableEq α] {l : List α} {x : α} :
    1 < l.count x ↔ ∃ i j : Nat, i < j ∧ l[i]? = some x ∧ l[j]? = some x := by
  have htwo : 1 < l.count x ↔ List.Duplicate x l := List.duplicate_iff_two_le_count.symm
  rw [htwo, List.duplicate_iff_exists_distinct_get]
  refine ⟨?_, ?_⟩
  · rintro ⟨i, j, hij, hi, hj⟩
    exact ⟨i, j, hij, List.getElem?_eq_some_iff.mpr ⟨i.isLt, hi.symm⟩,
      List.getElem?_eq_some_iff.mpr ⟨j.isLt, hj.symm⟩⟩
  · rintro ⟨i, j, hij, hi, hj⟩
    obtain ⟨hi, heqi⟩ := List.getElem?_eq_some_iff.mp hi
    obtain ⟨hj, heqj⟩ := List.getElem?_eq_some_iff.mp hj
    exact ⟨⟨i, hi⟩, ⟨j, hj⟩, hij, heqi.symm, heqj.symm⟩

/-- Without repetitions, what is left is a single entry iff no other entry passes. -/
theorem Nodup.filter_eq_singleton_iff {l : List α} (h : l.Nodup) {p : α → Bool} {x : α} :
    l.filter p = [x] ↔ (x ∈ l ∧ p x = true) ∧ ∀ y ∈ l, p y = true → y = x := by
  rw [← List.perm_singleton, List.perm_ext_iff_of_nodup (h.filter p) (List.nodup_singleton x)]
  simp only [List.mem_filter, List.mem_singleton]
  refine ⟨?_, ?_⟩
  · intro hall
    exact ⟨(hall x).mpr rfl, fun y hy hp => (hall y).mp ⟨hy, hp⟩⟩
  · rintro ⟨hx, honly⟩ y
    refine ⟨fun hy => honly y hy.1 hy.2, fun hy => ?_⟩
    rw [hy]
    exact hx

/-- An entry of a list that has grown by one is an old entry or the new one. -/
theorem getElem?_append_singleton {l : List α} {x y : α} {i : Nat}
    (h : (l ++ [x])[i]? = some y) : l[i]? = some y ∨ i = l.length ∧ x = y := by
  rcases Nat.lt_trichotomy i l.length with hlt | rfl | hgt
  · rw [List.getElem?_append_left hlt] at h
    exact Or.inl h
  · simp only [List.getElem?_append_right (Nat.le_refl _), Nat.sub_self, List.getElem?_cons_zero,
      Option.some.injEq] at h
    exact Or.inr ⟨rfl, h⟩
  · have hnone : (l ++ [x])[i]? = none := List.getElem?_eq_none (by simp; omega)
    rw [hnone] at h
    cases h

theorem getElem?_append_of_some {l m : List α} {y : α} {i : Nat} (h : l[i]? = some y) :
    (l ++ m)[i]? = some y := by
  rw [List.getElem?_append_left (List.getElem?_eq_some_iff.mp h).1]
  exact h

/-- Sorted entries of a sorted list are its beginning when every other entry comes after
    them. -/
theorem isPrefix_of_pairwise {r : α → α → Prop} (hasymm : ∀ x y, r x y → ¬ r y x) {l m : List α}
    (hl : l.Pairwise r) (hm : m.Pairwise r) (hsub : ∀ x ∈ l, x ∈ m)
    (hfirst : ∀ y ∈ m, y ∈ l ∨ ∀ x ∈ l, r x y) : l <+: m := by
  induction l generalizing m with
  | nil => exact List.nil_prefix
  | cons x l ih =>
      cases m with
      | nil => cases hsub x List.mem_cons_self
      | cons y m =>
          obtain ⟨hx, hxs⟩ := List.pairwise_cons.mp hl
          obtain ⟨hy, hys⟩ := List.pairwise_cons.mp hm
          have heq : x = y := by
            by_contra hne
            have hmem := List.mem_cons.mp (hsub x List.mem_cons_self)
            have hyx : r y x := hy x (hmem.resolve_left hne)
            rcases hfirst y List.mem_cons_self with hmem | hall
            · have hin : y ∈ l := (List.mem_cons.mp hmem).resolve_left (Ne.symm hne)
              exact hasymm y x hyx (hx y hin)
            · exact hasymm y x hyx (hall x List.mem_cons_self)
          subst heq
          have hirrefl : ¬ r x x := fun h => hasymm x x h h
          refine (List.prefix_cons_inj x).mpr (ih hxs hys ?_ ?_)
          · intro z hz
            have hne : z ≠ x := by
              rintro rfl
              exact hirrefl (hx z hz)
            exact (List.mem_cons.mp (hsub z (List.mem_cons_of_mem x hz))).resolve_left hne
          · intro z hz
            have hne : z ≠ x := by
              rintro rfl
              exact hirrefl (hy z hz)
            rcases hfirst z (List.mem_cons_of_mem x hz) with hmem | hall
            · exact Or.inl ((List.mem_cons.mp hmem).resolve_left hne)
            · exact Or.inr fun w hw => hall w (List.mem_cons_of_mem x hw)

/-- Writing the entries of a list, each under its key: the other keys keep their values. -/
theorem foldl_update_of_notMem {κ β : Type _} [DecidableEq κ] {key : α → κ} {value : α → β}
    {l : List α} {k : κ} (h : k ∉ l.map key) (f : κ → β) :
    l.foldl (fun f a => Function.update f (key a) (value a)) f k = f k := by
  induction l generalizing f with
  | nil => rfl
  | cons a l ih =>
      rw [List.map_cons, List.mem_cons, not_or] at h
      rw [List.foldl_cons, ih h.2, Function.update_of_ne h.1]

/-- A key that all its entries give one value has that value. -/
theorem foldl_update_of_mem {κ β : Type _} [DecidableEq κ] {key : α → κ} {value : α → β}
    {l : List α} {k : κ} {v : β} (hmem : k ∈ l.map key) (h : ∀ a ∈ l, key a = k → value a = v)
    (f : κ → β) : l.foldl (fun f a => Function.update f (key a) (value a)) f k = v := by
  induction l generalizing f with
  | nil => cases hmem
  | cons a l ih =>
      rw [List.foldl_cons]
      by_cases htail : k ∈ l.map key
      · exact ih htail (fun b hb => h b (List.mem_cons_of_mem a hb)) _
      · have hk : key a = k := by
          rw [List.map_cons, List.mem_cons] at hmem
          exact (hmem.resolve_right htail).symm
        rw [foldl_update_of_notMem htail, hk, Function.update_self]
        exact h a List.mem_cons_self hk

/-- Appending to the entries of a map: each key gets what is appended under it. -/
theorem foldl_update_append {κ β : Type _} [DecidableEq κ] (key : α → κ) (value : α → List β)
    (l : List α) (f : κ → List β) (k : κ) :
    l.foldl (fun f a => Function.update f (key a) (f (key a) ++ value a)) f k =
      f k ++ (l.filter fun a => key a = k).flatMap value := by
  induction l generalizing f with
  | nil => simp
  | cons a l ih =>
      rw [List.foldl_cons, ih]
      by_cases hk : key a = k
      · subst hk
        rw [Function.update_self, List.filter_cons_of_pos (by simp), List.flatMap_cons,
          List.append_assoc]
      · rw [Function.update_of_ne (Ne.symm hk), List.filter_cons_of_neg (by simpa using hk)]

/-- Replacing an entry of the second of two lists side by side. -/
theorem zip_set {β : Type _} {l : List α} {m : List β} {i : Nat} {x : α} (h : l[i]? = some x)
    (y : β) : l.zip (m.set i y) = (l.zip m).set i (x, y) := by
  induction l generalizing m i with
  | nil => simp at h
  | cons z l ih =>
      cases m with
      | nil => simp
      | cons w m =>
          cases i with
          | zero =>
              obtain rfl : z = x := by simpa using h
              rfl
          | succ i =>
              simp only [List.set_cons_succ, List.zip_cons_cons]
              rw [ih (by simpa using h)]

/-- An entry of a list with one replaced is the new one, or an old one at another place. -/
theorem getElem?_set_cases {l : List α} {i j : Nat} {x y : α} (h : (l.set i y)[j]? = some x) :
    i = j ∧ y = x ∨ i ≠ j ∧ l[j]? = some x := by
  by_cases hij : i = j
  · subst hij
    obtain ⟨hlt, hx⟩ := List.getElem?_eq_some_iff.mp h
    rw [List.getElem_set_self] at hx
    exact Or.inl ⟨rfl, hx⟩
  · rw [List.getElem?_set_ne hij] at h
    exact Or.inr ⟨hij, h⟩

theorem mem_set_cases {l : List α} {i : Nat} {x y : α} (h : x ∈ l.set i y) :
    x = y ∨ ∃ j ≠ i, l[j]? = some x := by
  obtain ⟨j, hj⟩ := List.mem_iff_getElem?.mp h
  rcases List.getElem?_set_cases hj with ⟨-, rfl⟩ | ⟨hij, hj⟩
  · exact Or.inl rfl
  · exact Or.inr ⟨j, Ne.symm hij, hj⟩

/-- Replacing an entry by one that has the property if it had it. -/
theorem exists_mem_set {P : α → Prop} {l : List α} {i : Nat} {x y : α} (h : ∃ z ∈ l, P z)
    (hx : l[i]? = some x) (hy : P x → P y) : ∃ z ∈ l.set i y, P z := by
  obtain ⟨z, hz, hP⟩ := h
  obtain ⟨j, hj⟩ := List.mem_iff_getElem?.mp hz
  by_cases hij : i = j
  · subst hij
    obtain rfl : x = z := Option.some.inj (hx.symm.trans hj)
    exact ⟨y, List.mem_set (List.getElem?_eq_some_iff.mp hx).1 y, hy hP⟩
  · exact ⟨z, List.mem_of_getElem? ((List.getElem?_set_ne hij).trans hj), hP⟩

end List
