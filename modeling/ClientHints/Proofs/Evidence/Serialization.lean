import ClientHints.Evidence.Basic
import ClientHints.Proofs.Converter.Limits
import ClientHints.Proofs.Json.Writer

set_option autoImplicit false

namespace ClientHints

open Json Json.Grammar

namespace Json

theorem settles_texts (entries : List (String × String)) :
    SettlesMembers (Members.ofTexts entries) (Members.ofTexts entries) := by
  induction entries with
  | nil => exact .nil
  | cons entry rest ih => exact .cons (.string entry.2) ih

theorem depth_of_texts (entries : List (String × String)) : depthOfMembers (Members.ofTexts entries) = 0 := by
  induction entries with
  | nil => rfl
  | cons entry rest ih => exact Nat.max_eq_zero_iff.mpr ⟨rfl, ih⟩

theorem texts_read {text : Bytes} {entries : List (String × String)}
    (listed : WritesItem text (.object (Members.ofTexts entries))) :
    Document.parse text = .ok (.object (Members.ofList (Members.ofTexts entries))) := by
  have settles := Settles.object (settles_texts entries) ((Members.is_latest_iff _ _).mpr rfl)
  have shallow : (object (Members.ofTexts entries)).depth ≤ Reader.nestingBound := by
    rw [depth, depth_of_texts]
    decide
  exact (Document.parse_ok_iff text _).mpr (writes_read listed settles shallow)

end Json

namespace Evidence

theorem texts_keys (m : Evidence) : (Members.ofTexts m.entries).keys = m.keys :=
  List.map_map

theorem serialization_loads (m : Evidence) (distinct : m.keys.Nodup) :
    ∃ members : Members, members.Perm (m.entries.map fun entry => (entry.1, .string entry.2)) ∧
      ∀ text ∈ [m.compact, m.pretty],
        WritesItem (Utf8.encode text) (.object (m.entries.map fun entry => (entry.1, .string entry.2))) ∧
        Document.parse (Utf8.encode text) = .ok (.object members) ∧
        ((Utf8.encode text).length < 2 ^ 64 →
          Document.load .unbounded (Utf8.encode text) = .ok (.object members)) := by
  refine ⟨Members.ofList (Members.ofTexts m.entries), Members.of_list_perm (texts_keys m ▸ distinct), fun text layout => ?_⟩
  have listed : WritesItem (Utf8.encode text) (.object (Members.ofTexts m.entries)) := by
    obtain rfl | rfl := List.mem_pair.mp layout
    · exact Writer.compact_writes m.entries
    · exact Writer.pretty_writes m.entries
  have found := texts_read listed
  exact ⟨listed, found, fun fits => (Document.load_unbounded_iff fits _).mpr found⟩

def hostile : Evidence := ⟨[("query.\"\\", "\x00\n\x1f"), ("header.😀", "\x7f𝄞\"")]⟩

theorem hostile_loads :
    hostile.compact = "\x7b\"query.\\\"\\\\\":\"\\u0000\\n\\u001f\",\"header.😀\":\"\x7f𝄞\\\"\"\x7d" ∧
      ∃ members : Members, members.Perm [("query.\"\\", .string "\x00\n\x1f"), ("header.😀", .string "\x7f𝄞\"")] ∧
        Document.load .unbounded (Utf8.encode hostile.compact) = .ok (.object members) ∧
        Document.load .unbounded (Utf8.encode hostile.pretty) = .ok (.object members) := by
  obtain ⟨members, kept, loads⟩ := serialization_loads hostile (by decide)
  have compact := (loads hostile.compact (by simp)).2.2 (by decide +kernel)
  have pretty := (loads hostile.pretty (by simp)).2.2 (by decide +kernel)
  exact ⟨by decide +kernel, members, kept, compact, pretty⟩

end Evidence

end ClientHints
