/-
  Milde.Common.GroupBy

  Grouping a list by a key: the groups stand in the order in which their keys
  first occur, and a group holds its entries in list order.
-/
import Mathlib.Data.List.Basic
import Mathlib.Data.List.Perm.Basic

variable {α κ : Type _} [DecidableEq κ]

/-- The groups of `l` under `key`, each with its key. -/
def groupBy (key : α → κ) (l : List α) : List (κ × List α) :=
  (l.map key).eraseDups.map fun k => (k, l.filter fun a => key a = k)

theorem mem_groupBy {key : α → κ} {l : List α} {k : κ} {g : List α} :
    (k, g) ∈ groupBy key l ↔ (∃ a ∈ l, key a = k) ∧ g = l.filter fun a => key a = k := by
  simp only [groupBy, List.mem_map, List.mem_eraseDups, Prod.mk.injEq]
  refine ⟨?_, ?_⟩
  · rintro ⟨k', ⟨a, ha, rfl⟩, rfl, rfl⟩
    exact ⟨⟨a, ha, rfl⟩, rfl⟩
  · rintro ⟨⟨a, ha, rfl⟩, rfl⟩
    exact ⟨key a, ⟨a, ha, rfl⟩, rfl, rfl⟩

/-- A group is a sublist of the list, and its entries have the group's key. -/
theorem group_spec {key : α → κ} {l : List α} {k : κ} {g : List α}
    (h : (k, g) ∈ groupBy key l) : g ≠ [] ∧ ∀ a ∈ g, a ∈ l ∧ key a = k := by
  obtain ⟨⟨a, ha, hk⟩, rfl⟩ := mem_groupBy.mp h
  refine ⟨List.ne_nil_of_mem (List.mem_filter.mpr ⟨ha, by simpa using hk⟩), ?_⟩
  intro b hb
  simpa using List.mem_filter.mp hb

/-- The groups together hold the entries of the list. -/
theorem mem_flatMap_groupBy {key : α → κ} {l : List α} {a : α} :
    a ∈ (groupBy key l).flatMap Prod.snd ↔ a ∈ l := by
  rw [List.mem_flatMap]
  refine ⟨?_, fun ha => ?_⟩
  · rintro ⟨⟨k, g⟩, hg, ha⟩
    exact ((group_spec hg).2 a ha).1
  · exact ⟨(key a, _), mem_groupBy.mpr ⟨⟨a, ha, rfl⟩, rfl⟩,
      List.mem_filter.mpr ⟨ha, by simp⟩⟩

theorem nodup_eraseDups (l : List κ) : l.eraseDups.Nodup := by
  match l with
  | [] => exact List.nodup_nil
  | k :: l =>
      rw [List.eraseDups_cons]
      have hlen : (l.filter fun k' => !k' == k).length < l.length + 1 :=
        Nat.lt_succ_of_le (List.length_filter_le _ l)
      exact List.nodup_cons.mpr ⟨by simp, nodup_eraseDups _⟩
termination_by l.length

/-- Different groups have different keys. -/
theorem nodup_groupBy_keys (key : α → κ) (l : List α) : ((groupBy key l).map Prod.fst).Nodup := by
  have hkeys : (groupBy key l).map Prod.fst = (l.map key).eraseDups := by
    simp [groupBy, Function.comp_def]
  rw [hkeys]
  exact nodup_eraseDups _

-- ============================================================================
-- The entries of some of the groups
-- ============================================================================

/-- The groups of different keys, one after the other, hold what has one of the keys. -/
theorem flatMap_filter_perm (key : α → κ) (l : List α) {ks : List κ} (h : ks.Nodup) :
    (ks.flatMap fun k => l.filter fun a => key a = k).Perm (l.filter fun a => key a ∈ ks) := by
  induction ks with
  | nil => simp
  | cons k ks ih =>
      obtain ⟨hk, hks⟩ := List.nodup_cons.mp h
      have hfirst : (l.filter fun a => key a ∈ k :: ks).filter (fun a => key a = k) =
          l.filter fun a => key a = k := by
        rw [List.filter_filter]
        apply List.filter_congr
        intro a _
        by_cases hak : key a = k
        · simp [hak]
        · simp [hak]
      have hrest : (l.filter fun a => key a ∈ k :: ks).filter (fun a => !decide (key a = k)) =
          l.filter fun a => key a ∈ ks := by
        rw [List.filter_filter]
        apply List.filter_congr
        intro a _
        by_cases hak : key a = k
        · simp [hak, hk]
        · simp [hak]
      have hsplit := List.filter_append_perm (fun a => decide (key a = k))
        (l.filter fun a => key a ∈ k :: ks)
      rw [hfirst, hrest] at hsplit
      exact (List.Perm.append_left _ (ih hks)).trans hsplit

/-- Among them, what has one key stands in list order. -/
theorem filter_flatMap_filter (key : α → κ) (l : List α) {ks : List κ} (h : ks.Nodup) {k : κ}
    (hk : k ∈ ks) :
    (ks.flatMap fun k => l.filter fun a => key a = k).filter (fun a => key a = k) =
      l.filter fun a => key a = k := by
  have hgroup : ∀ k', (l.filter fun a => key a = k').filter (fun a => key a = k) =
      if k' = k then l.filter fun a => key a = k else [] := by
    intro k'
    rw [List.filter_filter]
    split
    · rename_i heq
      exact List.filter_congr fun a _ => by simp [heq]
    · rename_i hne
      apply List.filter_eq_nil_iff.mpr
      intro a _ hboth
      simp only [Bool.and_eq_true, decide_eq_true_eq] at hboth
      exact hne (hboth.2.symm.trans hboth.1)
  have hnone : ∀ ks : List κ, k ∉ ks →
      (ks.flatMap fun k => l.filter fun a => key a = k).filter (fun a => key a = k) = [] := by
    intro ks hk
    refine List.filter_eq_nil_iff.mpr fun a ha hak => hk ?_
    obtain ⟨k', hk', ha⟩ := List.mem_flatMap.mp ha
    rw [← of_decide_eq_true hak, of_decide_eq_true (List.mem_filter.mp ha).2]
    exact hk'
  induction ks with
  | nil => cases hk
  | cons k' ks ih =>
      obtain ⟨hk', hks⟩ := List.nodup_cons.mp h
      rw [List.flatMap_cons, List.filter_append, hgroup]
      by_cases heq : k' = k
      · subst heq
        rw [if_pos rfl, hnone ks hk', List.append_nil]
      · rw [if_neg heq, List.nil_append]
        exact ih hks ((List.mem_cons.mp hk).resolve_left (Ne.symm heq))

/-- The entries of the groups whose keys pass. -/
def entriesOf (key : α → κ) (p : κ → Bool) (l : List α) : List α :=
  ((groupBy key l).filter fun g => p g.1).flatMap Prod.snd

theorem entriesOf_eq (key : α → κ) (p : κ → Bool) (l : List α) :
    entriesOf key p l =
      ((l.map key).eraseDups.filter p).flatMap fun k => l.filter fun a => key a = k := by
  rw [entriesOf, groupBy, List.filter_map, List.flatMap_map]
  rfl

/-- They are the entries whose key passes, each as often as in the list. -/
theorem entriesOf_perm (key : α → κ) (p : κ → Bool) (l : List α) :
    (entriesOf key p l).Perm (l.filter fun a => p (key a)) := by
  rw [entriesOf_eq]
  refine (flatMap_filter_perm key l ((nodup_eraseDups _).filter p)).trans (List.Perm.of_eq ?_)
  apply List.filter_congr
  intro a ha
  have hmem : key a ∈ l.map key := List.mem_map_of_mem ha
  simp [List.mem_filter, hmem]

/-- All groups together hold each entry as often as the list. -/
theorem flatMap_groupBy_perm (key : α → κ) (l : List α) :
    ((groupBy key l).flatMap Prod.snd).Perm l := by
  have h := entriesOf_perm key (fun _ => true) l
  rwa [entriesOf, List.filter_true, List.filter_true] at h

/-- Those of one key stand in list order. -/
theorem filter_entriesOf (key : α → κ) {p : κ → Bool} (l : List α) {k : κ} (hk : p k = true) :
    (entriesOf key p l).filter (fun a => key a = k) = l.filter fun a => key a = k := by
  by_cases hmem : k ∈ l.map key
  · rw [entriesOf_eq]
    exact filter_flatMap_filter key l ((nodup_eraseDups _).filter p)
      (List.mem_filter.mpr ⟨List.mem_eraseDups.mpr hmem, hk⟩)
  · have hnone : ∀ l' : List α, (∀ a ∈ l', a ∈ l) → (l'.filter fun a => key a = k) = [] := by
      intro l' hsub
      refine List.filter_eq_nil_iff.mpr fun a ha hak => hmem ?_
      exact List.mem_map.mpr ⟨a, hsub a ha, of_decide_eq_true hak⟩
    rw [hnone l fun _ h => h, hnone (entriesOf key p l)]
    exact fun a ha => List.mem_of_mem_filter ((entriesOf_perm key p l).mem_iff.mp ha)

/-- Where one key passes at most, they are the entries in list order. -/
theorem entriesOf_eq_filter (key : α → κ) {p : κ → Bool} {l : List α}
    (hone : ∀ a ∈ l, ∀ b ∈ l, p (key a) = true → p (key b) = true → key a = key b) :
    entriesOf key p l = l.filter fun a => p (key a) := by
  have hperm := entriesOf_perm key p l
  by_cases hsome : ∃ a ∈ l, p (key a) = true
  · obtain ⟨a, ha, hpa⟩ := hsome
    have hkey : ∀ b ∈ l.filter fun b => p (key b), key b = key a := by
      intro b hb
      obtain ⟨hb, hpb⟩ := List.mem_filter.mp hb
      exact hone b hb a ha hpb hpa
    have hall : ∀ m : List α, (∀ b ∈ m, key b = key a) →
        (m.filter fun b => key b = key a) = m := fun m hm =>
      List.filter_eq_self.mpr fun b hb => decide_eq_true (hm b hb)
    calc entriesOf key p l
        = (entriesOf key p l).filter fun b => key b = key a :=
          (hall _ fun b hb => hkey b (hperm.mem_iff.mp hb)).symm
      _ = l.filter fun b => key b = key a := filter_entriesOf key l hpa
      _ = l.filter fun b => p (key b) := by
          apply List.filter_congr
          intro b hb
          by_cases hpb : p (key b) = true
          · rw [hpb, decide_eq_true_iff]
            exact hone b hb a ha hpb hpa
          · rw [eq_false_of_ne_true hpb, decide_eq_false_iff_not]
            rintro heq
            exact hpb (heq ▸ hpa)
  · have hnil : (l.filter fun a => p (key a)) = [] :=
      List.filter_eq_nil_iff.mpr fun a ha hpa => hsome ⟨a, ha, hpa⟩
    rw [hnil] at hperm ⊢
    exact hperm.eq_nil
