import ClientHints.Proofs.Json.Soundness

/-!
A JSON text that can be read is UTF-8 as a whole, although the reader checks the content of a string only, and
that only after its escapes are replaced: all octets outside of strings and within escapes are ASCII.
-/

set_option autoImplicit false

namespace ClientHints.Json

open Utf8 Grammar

namespace Grammar

theorem spacing_valid {octets : Bytes} (blank : IsSpacing octets) : Valid octets := by
  refine valid_ascii octets fun b member => ?_
  obtain rfl | rfl | rfl | rfl := blank b member <;> decide

theorem all_ascii {octets : Bytes} (checked : octets.all (· < 0x80) = true) : Valid octets :=
  valid_ascii octets (by simpa using checked)

theorem unit_valid {octets : Bytes} {value : Nat} (written : WritesUnit octets value) : Valid octets := by
  have ascii {b : UInt8} {digit : Nat} (known : WritesHexDigit b digit) : b < 0x80 := by
    have table : ∀ b digit, digit ∈ Quoted.hexDigit? b → b < 0x80 := octet_forall (by decide +kernel)
    exact table b digit ((Quoted.hex_digit_iff b digit).mpr known)
  obtain ⟨first, second, third, fourth⟩ := written
  exact valid_ascii _ (by simp [ascii first, ascii second, ascii third, ascii fourth])

theorem char_valid {octets : Bytes} {c : Char} (written : WritesChar octets c) : Valid octets := by
  cases written with
  | plain => exact ⟨[c], by simp [spell]⟩
  | short known =>
    have table : ∀ entry ∈ shortEscapes, [0x5C, entry.1].all (· < 0x80) = true := by decide
    exact all_ascii (table _ known)
  | unit written => exact valid_append (all_ascii (by decide)) (unit_valid written)
  | pair first second =>
    exact valid_append (valid_append (valid_append (all_ascii (by decide)) (unit_valid first)) (all_ascii (by decide)))
      (unit_valid second)

theorem chars_valid {octets : Bytes} {chars : List Char} (written : WritesChars octets chars) : Valid octets := by
  induction written with
  | nil => exact ⟨[], rfl⟩
  | cons first _ ih => exact valid_append (char_valid first) ih

theorem string_valid {octets : Bytes} {text : String} (written : WritesString octets text) : Valid octets := by
  obtain ⟨inside⟩ := written
  exact valid_append (valid_append (all_ascii (by decide)) (chars_valid inside)) (all_ascii (by decide))

theorem digits_valid {octets : Bytes} {values : List Nat} (written : WritesDigits octets values) : Valid octets := by
  obtain ⟨-, bounds⟩ := written
  have table : ∀ value < 10, UInt8.ofNat (0x30 + value) < 0x80 := by decide
  refine valid_ascii _ (List.forall_mem_map.mpr fun value member => table value (bounds value member))

theorem sign_valid {octets : Bytes} {negative : Bool} (written : WritesSign octets negative) : Valid octets := by
  cases written <;> exact all_ascii (by decide)

theorem literal_valid {octets : Bytes} {l : Literal} (written : WritesLiteral octets l) : Valid octets := by
  obtain ⟨signed, ⟨first, -⟩, second, third⟩ := written
  refine valid_append (valid_append (valid_append (sign_valid signed) (digits_valid first)) ?_) ?_
  · cases second with
    | none => exact ⟨[], rfl⟩
    | point written => exact valid_append (all_ascii (by decide)) (digits_valid written)
  · cases third with
    | none => exact ⟨[], rfl⟩
    | power marked signed written =>
      refine valid_append (valid_append ?_ ?_) (digits_valid written)
      · obtain rfl | rfl := marked <;> exact all_ascii (by decide)
      · obtain signed | ⟨rfl, -⟩ := signed
        · exact sign_valid signed
        · exact all_ascii (by decide)

mutual

theorem value_valid : {octets : Bytes} → {value : Json} → WritesValue octets value → Valid octets
  | _, _, .null => all_ascii (by decide)
  | _, _, .yes => all_ascii (by decide)
  | _, _, .no => all_ascii (by decide)
  | _, _, .number written _ => literal_valid written
  | _, _, .string written => string_valid written
  | _, _, .emptyArray blank | _, _, .emptyObject blank =>
    valid_append (valid_append (all_ascii (by decide)) (spacing_valid blank)) (all_ascii (by decide))
  | _, _, .array written =>
    valid_append (valid_append (all_ascii (by decide)) (items_valid written)) (all_ascii (by decide))
  | _, _, .object written =>
    valid_append (valid_append (all_ascii (by decide)) (members_valid written)) (all_ascii (by decide))

theorem item_valid : {octets : Bytes} → {value : Json} → WritesItem octets value → Valid octets
  | _, _, .spaced left written right =>
    valid_append (valid_append (spacing_valid left) (value_valid written)) (spacing_valid right)

theorem items_valid : {octets : Bytes} → {items : List Json} → WritesItems octets items → Valid octets
  | _, _, .one written => item_valid written
  | _, _, .more others written =>
    valid_append (valid_append (items_valid others) (all_ascii (by decide))) (item_valid written)

theorem member_valid : {octets : Bytes} → {member : String × Json} → WritesMember octets member → Valid octets
  | _, _, .keyed left named right written =>
    valid_append (valid_append (valid_append (valid_append (spacing_valid left) (string_valid named)) (spacing_valid right))
      (all_ascii (by decide))) (item_valid written)

theorem members_valid : {octets : Bytes} → {members : List (String × Json)} → WritesMembers octets members → Valid octets
  | _, _, .one written => member_valid written
  | _, _, .more others written =>
    valid_append (valid_append (members_valid others) (all_ascii (by decide))) (member_valid written)

end

end Grammar

theorem read_valid {octets : Bytes} {value : Json} (accepted : read octets = .ok value) : Valid octets := by
  obtain ⟨written, listed, -, -⟩ := read_writes accepted
  exact item_valid listed

end ClientHints.Json
