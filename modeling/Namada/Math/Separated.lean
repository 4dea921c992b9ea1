/-
# Strings joined by a separator

Parts joined with a separator and split at it again, and the order of strings
that share a beginning. Splitting the joined parts gives them back when none
holds the separator; strings with a common beginning compare as what follows it.
-/

import Mathlib

namespace Namada.Math

/-- Lists that share a beginning compare as what follows it. -/
theorem append_lt_append_left_iff {α : Type} [LT α] [Std.Irrefl (· < · : α → α → Prop)]
    (common : List α) {first second : List α} :
    common ++ first < common ++ second ↔ first < second := by
  induction common with
  | nil => rfl
  | cons head common ih => rw [List.cons_append, List.cons_append, List.cons_lt_cons_self, ih]

/-- Strings that share a beginning compare as what follows it. -/
theorem string_append_lt_append_left_iff (common first second : String) :
    common ++ first < common ++ second ↔ first < second := by
  rw [String.lt_iff, String.lt_iff, String.toList_append, String.toList_append]
  exact append_lt_append_left_iff common.toList

/-- Splitting parts joined by `sep` gives them back, when none holds `sep`. -/
theorem splitOn_intercalate_singleton (sep : Char) {parts : List String}
    (hsep : ∀ part ∈ parts, sep ∉ part.toList) (hne : parts ≠ []) :
    ((String.singleton sep).intercalate parts).toList.splitOn sep = parts.map String.toList := by
  rw [String.toList_intercalate, String.toList_singleton]
  apply List.splitOn_intercalate
  · intro chars hchars
    obtain ⟨part, hpart, rfl⟩ := List.mem_map.mp hchars
    exact hsep part hpart
  · exact fun hnil => hne (List.map_eq_nil_iff.mp hnil)

/-- A string begins with what it is appended to. -/
theorem isPrefixOf_append (common rest : String) :
    common.toList.isPrefixOf (common ++ rest).toList = true := by
  rw [String.toList_append, List.isPrefixOf_iff_prefix]
  exact List.prefix_append _ _

end Namada.Math
