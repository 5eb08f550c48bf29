/-
  Milde.Common.TopicExchange

  A message broker with topic exchanges: queues, and bindings that say which of the
  messages published to an exchange a queue gets.

  A key is a list of words separated by dots.  In the pattern of a binding `*` stands for
  one word and `#` for any number of words.
-/
import Mathlib.Logic.Function.Basic
import Milde.Common.Lists

namespace TopicExchange

/-- The words of a key or a pattern. -/
def words (key : String) : List (List Char) := key.toList.splitOn '.'

/-- Whether the words of a pattern match those of a key. -/
def topicMatches : List (List Char) → List (List Char) → Bool
  | [], key => key.isEmpty
  | p :: pattern, key =>
      if p = ['#'] then
        (List.range (key.length + 1)).any fun n => topicMatches pattern (key.drop n)
      else
        match key with
        | [] => false
        | word :: key => (p = ['*'] || p = word) && topicMatches pattern key

structure Binding where
  exchange : String
  pattern : String
  queue : String
deriving DecidableEq, Repr

/-- The bindings and what is waiting in the queues. -/
structure Broker (M : Type) where
  bindings : List Binding
  queues : String → List M

namespace Broker

variable {M : Type}

def empty : Broker M := ⟨[], fun _ => []⟩

/-- Declaring a binding again changes nothing. -/
def bind (b : Broker M) (binding : Binding) : Broker M :=
  if binding ∈ b.bindings then b else { b with bindings := b.bindings ++ [binding] }

/-- Whether a queue gets what is published to an exchange under a key. -/
def routes (b : Broker M) (exchange key queue : String) : Bool :=
  b.bindings.any fun binding => binding.exchange = exchange ∧ binding.queue = queue ∧
    topicMatches (words binding.pattern) (words key)

/-- A message goes to the end of every queue that gets it, and nowhere when none does. -/
def publish (b : Broker M) (exchange key : String) (m : M) : Broker M :=
  { b with
    queues := fun queue =>
      if b.routes exchange key queue then b.queues queue ++ [m] else b.queues queue }

/-- The broker hands out the message at one place of a queue. -/
def take (b : Broker M) (queue : String) (n : Nat) : Option (M × Broker M) :=
  (b.queues queue)[n]?.map fun m =>
    (m, { b with queues := Function.update b.queues queue ((b.queues queue).eraseIdx n) })

variable {b b' : Broker M} {exchange key queue queue' : String} {m m' : M} {n : Nat}

@[simp] theorem queues_bind (b : Broker M) (x : Binding) : (b.bind x).queues = b.queues := by
  unfold bind
  split <;> rfl

theorem mem_bind {x y : Binding} : x ∈ (b.bind y).bindings ↔ x ∈ b.bindings ∨ x = y := by
  unfold bind
  split
  · rename_i hy
    refine ⟨?_, ?_⟩
    · exact Or.inl
    · rintro (hx | rfl)
      · exact hx
      · exact hy
  · rw [List.mem_append, List.mem_singleton]

theorem routes_of_mem {pattern : String} (hmem : ⟨exchange, pattern, queue⟩ ∈ b.bindings)
    (hmatch : topicMatches (words pattern) (words key) = true) :
    b.routes exchange key queue = true :=
  List.any_eq_true.mpr ⟨_, hmem, by simp [hmatch]⟩

theorem mem_publish : m' ∈ (b.publish exchange key m).queues queue ↔
    m' ∈ b.queues queue ∨ b.routes exchange key queue = true ∧ m' = m := by
  simp only [publish]
  split
  · rename_i h
    rw [List.mem_append, List.mem_singleton]
    simp [h]
  · rename_i h
    simp [h]

/-- A queue that the exchange does not lead to under the key stays as it is. -/
theorem queues_publish_of_not (h : b.routes exchange key queue = false) :
    (b.publish exchange key m).queues queue = b.queues queue := by
  simp only [publish, h, Bool.false_eq_true, if_false]

theorem countP_publish_le (p : M → Bool) : ((b.publish exchange key m).queues queue).countP p ≤
    (b.queues queue).countP p + (if p m then 1 else 0) := by
  simp only [publish]
  split
  · rw [List.countP_append, List.countP_singleton]
  · exact Nat.le_add_right _ _

theorem take_bindings (h : b.take queue n = some (m, b')) : b'.bindings = b.bindings := by
  obtain ⟨_, -, heq⟩ := Option.map_eq_some_iff.mp h
  cases heq
  rfl

/-- What is handed out was in the queue; the rest stays, and so do the other queues. -/
theorem mem_of_take (h : b.take queue n = some (m, b')) :
    m ∈ b.queues queue ∧ ∀ queue' m', m' ∈ b'.queues queue' → m' ∈ b.queues queue' := by
  obtain ⟨_, hm, heq⟩ := Option.map_eq_some_iff.mp h
  cases heq
  refine ⟨List.mem_of_getElem? hm, fun queue' m' hm' => ?_⟩
  by_cases hq : queue' = queue
  · subst hq
    simp only [Function.update_self] at hm'
    exact List.mem_of_mem_eraseIdx hm'
  · simpa only [Function.update_of_ne hq] using hm'

theorem countP_take (p : M → Bool) (h : b.take queue n = some (m, b')) :
    (b'.queues queue).countP p + (if p m then 1 else 0) = (b.queues queue).countP p := by
  obtain ⟨_, hm, heq⟩ := Option.map_eq_some_iff.mp h
  cases heq
  simp only [Function.update_self]
  exact List.countP_eraseIdx_add hm

theorem queues_take_of_ne (h : b.take queue n = some (m, b')) (hne : queue' ≠ queue) :
    b'.queues queue' = b.queues queue' := by
  obtain ⟨_, -, heq⟩ := Option.map_eq_some_iff.mp h
  cases heq
  exact Function.update_of_ne hne _ _

/-- What was in a queue is still there or has been handed out. -/
theorem mem_or_eq_of_take (h : b.take queue n = some (m, b')) (hm' : m' ∈ b.queues queue') :
    m' ∈ b'.queues queue' ∨ queue' = queue ∧ m' = m := by
  obtain ⟨_, hm, heq⟩ := Option.map_eq_some_iff.mp h
  cases heq
  by_cases hq : queue' = queue
  · subst hq
    obtain ⟨i, hi⟩ := List.mem_iff_getElem?.mp hm'
    by_cases hin : i = n
    · subst hin
      exact Or.inr ⟨rfl, Option.some.inj (hi.symm.trans hm)⟩
    · left
      show m' ∈ Function.update b.queues queue' _ queue'
      rw [Function.update_self, List.mem_eraseIdx_iff_getElem?]
      exact ⟨i, hin, hi⟩
  · left
    simpa only [Function.update_of_ne hq] using hm'

end Broker

-- ============================================================================
-- Keys of two words
-- ============================================================================

/-- A word without dots, a dot, and another. -/
theorem words_pair {word rest : String} (h : '.' ∉ word.toList) :
    words (word ++ "." ++ rest) = word.toList :: words rest := by
  have happend : (word ++ "." ++ rest).toList = word.toList ++ '.' :: rest.toList := by
    simp [String.toList_append]
  rw [words, happend, List.splitOn_append_cons_of_beq _ _ (by decide), List.splitOn_eq_singleton h]
  rfl

theorem words_single {word : String} (h : '.' ∉ word.toList) : words word = [word.toList] :=
  List.splitOn_eq_singleton h

/-- A pattern of a word and a star matches every key of that word and another. -/
theorem topicMatches_star (word rest : List Char) :
    topicMatches [word, ['*']] [word, rest] = true := by
  by_cases hword : word = ['#']
  · subst hword
    rw [topicMatches, if_pos rfl]
    exact List.any_eq_true.mpr ⟨1, by simp, rfl⟩
  · have hstar : topicMatches [['*']] [rest] = true := rfl
    rw [topicMatches, if_neg hword]
    simp [hstar]

/-- It matches no other key of two words, unless the word is a wildcard itself. -/
theorem topicMatches_star_iff {word word' rest : List Char} (hstar : word ≠ ['*'])
    (hhash : word ≠ ['#']) : topicMatches [word, ['*']] [word', rest] = true ↔ word = word' := by
  have htail : topicMatches [['*']] [rest] = true := rfl
  rw [topicMatches, if_neg hhash]
  simp [htail, hstar]

end TopicExchange
