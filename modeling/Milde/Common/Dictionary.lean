/-
  Milde.Common.Dictionary

  Maps that can be listed: a lookup function together with its keys in the order in which
  they were first set.

  `values` lists every value once (`mem_values`, `nodup_map_values`), and the order is all
  that two maps with the same lookups can differ in (`values_perm`).
-/
import Mathlib.Data.List.Nodup
import Mathlib.Data.List.Perm.Lattice
import Mathlib.Logic.Function.Basic

structure Dictionary (κ α : Type _) where
  keys : List κ
  find : κ → Option α
  nodup : keys.Nodup
  mem_keys : ∀ k, k ∈ keys ↔ (find k).isSome

namespace Dictionary

variable {κ α β : Type _}

def empty : Dictionary κ α where
  keys := []
  find _ := none
  nodup := List.nodup_nil
  mem_keys := by simp

/-- The values, in the order of their keys. -/
def values (d : Dictionary κ α) : List α := d.keys.filterMap d.find

@[simp] theorem empty_find (k : κ) : (empty : Dictionary κ α).find k = none := rfl

theorem mem_values {d : Dictionary κ α} {v : α} : v ∈ d.values ↔ ∃ k, d.find k = some v := by
  rw [values, List.mem_filterMap]
  refine ⟨?_, ?_⟩
  · rintro ⟨k, -, hk⟩
    exact ⟨k, hk⟩
  · rintro ⟨k, hk⟩
    exact ⟨k, (d.mem_keys k).mpr (by rw [hk]; rfl), hk⟩

/-- When the values know their keys, no key is listed twice. -/
theorem map_values {d : Dictionary κ α} {key : α → κ}
    (h : ∀ k v, d.find k = some v → key v = k) : d.values.map key = d.keys := by
  have hall : ∀ l : List κ, (∀ k ∈ l, (d.find k).isSome) → (l.filterMap d.find).map key = l := by
    intro l hl
    induction l with
    | nil => rfl
    | cons k rest ih =>
        obtain ⟨v, hv⟩ := Option.isSome_iff_exists.mp (hl k List.mem_cons_self)
        rw [List.filterMap_cons_some hv, List.map_cons, h k v hv,
          ih fun k' hk' => hl k' (List.mem_cons_of_mem k hk')]
  exact hall d.keys fun k hk => (d.mem_keys k).mp hk

theorem nodup_map_values {d : Dictionary κ α} {key : α → κ}
    (h : ∀ k v, d.find k = some v → key v = k) : (d.values.map key).Nodup := by
  rw [map_values h]
  exact d.nodup

/-- Maps with the same lookups list the same values, perhaps in another order. -/
theorem values_perm {d d' : Dictionary κ α} (h : d.find = d'.find) :
    d.values.Perm d'.values := by
  have hkeys : d.keys.Perm d'.keys := by
    rw [List.perm_ext_iff_of_nodup d.nodup d'.nodup]
    intro k
    rw [d.mem_keys, d'.mem_keys, h]
  rw [values, values, h]
  exact hkeys.filterMap _

-- ============================================================================
-- Setting a key
-- ============================================================================

variable [DecidableEq κ]

/-- A new key goes to the end, a known one stays where it is. -/
def set (d : Dictionary κ α) (k : κ) (v : α) : Dictionary κ α where
  keys := if k ∈ d.keys then d.keys else d.keys ++ [k]
  find := Function.update d.find k (some v)
  nodup := by
    split
    · exact d.nodup
    · rename_i hk
      refine List.nodup_append.mpr ⟨d.nodup, List.nodup_singleton k, ?_⟩
      rintro k' hk' _ hmem rfl
      rw [List.mem_singleton] at hmem
      rw [hmem] at hk'
      exact hk hk'
  mem_keys := by
    intro k'
    by_cases heq : k' = k
    · subst heq
      simp only [Function.update_self, Option.isSome_some, iff_true]
      split
      · assumption
      · simp
    · rw [Function.update_of_ne heq, ← d.mem_keys]
      split
      · exact Iff.rfl
      · simp [heq]

@[simp] theorem set_find (d : Dictionary κ α) (k : κ) (v : α) :
    (d.set k v).find = Function.update d.find k (some v) := rfl

end Dictionary
