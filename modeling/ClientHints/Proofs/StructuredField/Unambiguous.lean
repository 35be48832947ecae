import ClientHints.Proofs.StructuredField.Parsing
import Mathlib.Data.List.Basic

set_option autoImplicit false

namespace ClientHints.StructuredField

def parseBrands : String → Option (List Brand) :=
  parseList (readBrand fun _ => true)

theorem parse_brands_any (list : List Brand) : parseBrands (brands list) = some list :=
  parse_brands list (fun _ _ _ _ => rfl) fun _ _ _ _ _ _ => rfl

theorem brands_injective : Function.Injective brands := by
  intro first second same
  have read := parse_brands_any first
  rw [same, parse_brands_any] at read
  exact (Option.some.inj read).symm

theorem string_injective : Function.Injective string := by
  intro first second same
  have read (text : String) : parseString (fun _ => true) (string text) = some text := parse_string text fun _ _ => rfl
  exact Option.some.inj ((read first).symm.trans (same ▸ read second))

theorem strings_eq_brands (texts : List String) : strings texts = brands (texts.map fun name => ⟨name, none⟩) := by
  have entry (name : String) : brandEntry ⟨name, none⟩ = quote name.toList := List.append_nil _
  simp only [strings, brands, List.map_map, Function.comp_def, entry]

theorem strings_injective : Function.Injective strings := by
  have unversioned : Function.Injective fun name : String => Brand.mk name none := fun _ _ same => congrArg Brand.name same
  intro first second same
  rw [strings_eq_brands, strings_eq_brands] at same
  exact List.map_injective_iff.mpr unversioned (brands_injective same)

section Appending

theorem push_to_list (out : String) (c : Char) :
    (push out c).toList = out.toList ++ if c = '"' ∨ c = '\\' then ['\\', c] else [c] := by
  by_cases special : c = '"' ∨ c = '\\'
  · simp [push, special]
  · simp [push, special]

theorem pushed_to_list (out : String) (chars : List Char) :
    (chars.foldl push out).toList = out.toList ++ escape chars := by
  induction chars generalizing out with
  | nil => exact (List.append_nil _).symm
  | cons c rest ih => rw [List.foldl_cons, ih, push_to_list, List.append_assoc, escape_cons]

theorem append_eq (before text : String) : append before text = before ++ string text := by
  apply String.toList_inj.mp
  rw [append, String.toList_push, pushed_to_list, String.toList_push, String.toList_append, string, String.toList_ofList]
  simp [quote]

end Appending

theorem writing_is_unambiguous :
    (∀ list, parseBrands (brands list) = some list) ∧
    Function.Injective brands ∧ Function.Injective string ∧ Function.Injective strings ∧
    (∀ texts, strings texts = brands (texts.map fun name => ⟨name, none⟩)) ∧
    ∀ before text, append before text = before ++ string text :=
  ⟨parse_brands_any, brands_injective, string_injective, strings_injective, strings_eq_brands, append_eq⟩

theorem comma_in_name_is_no_separator :
    brands [⟨"a\", \"b", none⟩] ≠ brands [⟨"a", none⟩, ⟨"b", none⟩] := by
  obtain ⟨_, injective, _⟩ := writing_is_unambiguous
  exact fun same => absurd (injective same) (by decide)

end ClientHints.StructuredField
