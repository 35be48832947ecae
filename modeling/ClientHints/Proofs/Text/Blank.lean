import ClientHints.Text
import Mathlib.Data.List.DropRight

set_option autoImplicit false

namespace ClientHints.Blank

def leading (text : String) : List Char :=
  text.toList.takeWhile isBlank

theorem leading_blank (text : String) : ∀ c ∈ leading text, isBlank c = true :=
  fun _ member => List.mem_takeWhile_imp member

theorem drop_end_blank (chars : List Char) {after : List Char} (blank : ∀ c ∈ after, isBlank c = true) :
    dropEnd (chars ++ after) = dropEnd chars := by
  rw [dropEnd, dropEnd, List.reverse_append, List.dropWhile_append_of_pos]
  exact fun c member => blank c (List.mem_reverse.mp member)

theorem drop_end_filled (front : List Char) {back : List Char} (filled : dropEnd back ≠ []) :
    dropEnd (front ++ back) = front ++ dropEnd back := by
  have kept : ¬(back.reverse.dropWhile isBlank).isEmpty = true := fun empty =>
    filled (List.reverse_eq_nil_iff.mpr (List.isEmpty_iff.mp empty))
  rw [dropEnd, List.reverse_append, List.dropWhile_append, if_neg kept, List.reverse_append, List.reverse_reverse]
  rfl

theorem trim_padded {before after : String} (text : String) (left : ∀ c ∈ before.toList, isBlank c = true)
    (right : ∀ c ∈ after.toList, isBlank c = true) : trim (before ++ text ++ after) = trim text := by
  have inside : dropEnd ((text.toList ++ after.toList).dropWhile isBlank) = dropEnd (text.toList.dropWhile isBlank) := by
    rw [List.dropWhile_append]
    split
    · rename_i empty
      rw [List.isEmpty_iff.mp empty, List.dropWhile_eq_nil_iff.mpr right]
    · exact drop_end_blank _ right
  rw [trim, trim, String.toList_append, String.toList_append, List.append_assoc, List.dropWhile_append_of_pos left, inside]

theorem trim_visible {text : String} (visible : ∀ c ∈ text.toList, isBlank c = false) : trim text = text := by
  have front : text.toList.dropWhile isBlank = text.toList :=
    List.dropWhile_eq_self_iff.mpr fun filled => by simp [visible _ (List.getElem_mem filled)]
  have back : dropEnd text.toList = text.toList :=
    List.rdropWhile_eq_self_iff.mpr fun filled => by simp [visible _ (List.getLast_mem filled)]
  rw [trim, front, back, String.ofList_toList]

theorem trim_end_eq {text : String} (filled : trim text ≠ "") :
    trimEnd text = String.ofList (leading text) ++ trim text := by
  have kept : dropEnd (text.toList.dropWhile isBlank) ≠ [] := fun empty => filled (by rw [trim, empty])
  have split := drop_end_filled (leading text) kept
  rw [leading, List.takeWhile_append_dropWhile] at split
  rw [trimEnd, split, String.ofList_append]
  rfl

end ClientHints.Blank
