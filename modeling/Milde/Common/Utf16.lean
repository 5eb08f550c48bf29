/-
  Milde.Common.Utf16

  Texts of UTF-16 code units, and what a trip through UTF-8 leaves of one: a surrogate
  without its partner has no UTF-8 form, and the encoder puts U+FFFD in its place.
-/

namespace Milde

abbrev Text := List UInt16

namespace Text

def isHighSurrogate (u : UInt16) : Bool := 0xD800 ≤ u && u < 0xDC00

def isLowSurrogate (u : UInt16) : Bool := 0xDC00 ≤ u && u < 0xE000

def isSurrogate (u : UInt16) : Bool := isHighSurrogate u || isLowSurrogate u

def ofChar (c : Char) : Text :=
  if c.toNat < 0x10000 then [c.toNat.toUInt16]
  else
    let n := c.toNat - 0x10000
    [(0xD800 + n / 0x400).toUInt16, (0xDC00 + n % 0x400).toUInt16]

def ofString (s : String) : Text := s.toList.flatMap ofChar

/-- The unit that is written for one without a partner. -/
def replaced (u : UInt16) : UInt16 := if isSurrogate u then 0xFFFD else u

/-- Encoded as UTF-8 and decoded again. -/
def transcode : Text → Text
  | [] => []
  | [u] => [replaced u]
  | u :: l :: rest =>
      if isHighSurrogate u && isLowSurrogate l then u :: l :: transcode rest
      else replaced u :: transcode (l :: rest)

/-- Every surrogate has its partner. -/
def WellFormed : Text → Prop
  | [] => True
  | [u] => isSurrogate u = false
  | u :: l :: rest =>
      if isHighSurrogate u && isLowSurrogate l then WellFormed rest
      else isSurrogate u = false ∧ WellFormed (l :: rest)

theorem replaced_eq_self_iff (u : UInt16) : replaced u = u ↔ isSurrogate u = false := by
  unfold replaced
  split
  · rename_i hsurrogate
    refine ⟨fun heq => ?_, fun hnot => ?_⟩
    · rw [← heq] at hsurrogate
      exact absurd hsurrogate (by decide)
    · rw [hnot] at hsurrogate
      cases hsurrogate
  · rename_i hnot
    exact ⟨fun _ => Bool.not_eq_true _ ▸ hnot, fun _ => rfl⟩

/-- A text comes through unchanged iff it is well formed. -/
theorem transcode_eq_self_iff (s : Text) : s.transcode = s ↔ s.WellFormed := by
  induction s using transcode.induct with
  | case1 => exact ⟨fun _ => trivial, fun _ => rfl⟩
  | case2 u =>
      show [replaced u] = [u] ↔ isSurrogate u = false
      rw [List.cons_eq_cons, replaced_eq_self_iff]
      exact and_iff_left rfl
  | case3 u l rest hpair ih =>
      rw [transcode, WellFormed, if_pos hpair, if_pos hpair, List.cons_eq_cons, List.cons_eq_cons,
        ih]
      exact ⟨fun h => h.2.2, fun h => ⟨rfl, rfl, h⟩⟩
  | case4 u l rest hpair ih =>
      rw [transcode, WellFormed, if_neg hpair, if_neg hpair, List.cons_eq_cons,
        replaced_eq_self_iff, ih]

end Text

end Milde
