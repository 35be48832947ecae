import ClientHints.Json.Writer
import ClientHints.Proofs.Json.Spacing

set_option autoImplicit false

namespace ClientHints.Json

open Grammar Utf8

def Members.ofTexts (entries : List (String × String)) : Members :=
  entries.map fun entry => (entry.1, .string entry.2)

namespace Writer

section Strings

theorem short_escape_writes {letter c : Char} (known : (UInt8.ofNat letter.toNat, c) ∈ shortEscapes)
    (ascii : letter.toNat < 0x80) : WritesChar (spell ['\\', letter]) c := by
  rw [spell_ascii _ (List.forall_mem_cons.mpr ⟨by decide, List.forall_mem_singleton.mpr ascii⟩)]
  exact .short known

theorem hex_escape_writes {c : Char} (control : c.toNat < 0x20) :
    WritesChar (spell ['\\', 'u', '0', '0', Nat.digitChar (c.toNat / 16), Nat.digitChar (c.toNat % 16)]) c := by
  have ascii : ∀ value < 16, (Nat.digitChar value).toNat < 0x80 := by decide
  have digit : ∀ value < 16, WritesHexDigit (UInt8.ofNat (Nat.digitChar value).toNat) value := by decide
  have high : c.toNat / 16 < 16 := by omega
  have low : c.toNat % 16 < 16 := by omega
  have unit := WritesUnit.digits (digit 0 (by decide)) (digit 0 (by decide)) (digit _ high) (digit _ low)
  rw [show ((0 * 16 + 0) * 16 + c.toNat / 16) * 16 + c.toNat % 16 = c.toNat by omega] at unit
  have writes := WritesChar.unit unit (fun isHigh => by unfold IsHighSurrogate at isHigh; omega)
    (fun isLow => by unfold IsLowSurrogate at isLow; omega)
  rw [Char.ofNat_toNat] at writes
  rw [spell_ascii _ (by simp [ascii _ high, ascii _ low])]
  exact writes

theorem escape_writes (c : Char) : WritesChar (spell (escapeChar c)) c := by
  have short {letter d : Char} (same : c = d) (known : (UInt8.ofNat letter.toNat, d) ∈ shortEscapes)
      (ascii : letter.toNat < 0x80) : WritesChar (spell ['\\', letter]) c := same ▸ short_escape_writes known ascii
  unfold escapeChar
  split_ifs with quote backslash backspace formFeed newline carriage tab control
  · exact short quote (by decide) (by decide)
  · exact short backslash (by decide) (by decide)
  · exact short backspace (by decide) (by decide)
  · exact short formFeed (by decide) (by decide)
  · exact short newline (by decide) (by decide)
  · exact short carriage (by decide) (by decide)
  · exact short tab (by decide) (by decide)
  · exact hex_escape_writes control
  · rw [spell, List.flatMap_singleton]
    exact .plain c (Nat.not_lt.mp control) quote backslash

theorem escapes_write (chars : List Char) : WritesChars (spell (chars.flatMap escapeChar)) chars := by
  induction chars with
  | nil => exact .nil
  | cons c rest ih =>
    rw [List.flatMap_cons, spell_append]
    exact .cons (escape_writes c) ih

theorem quote_writes (text : String) : WritesString (spell (quote text)) text := by
  have quoted := WritesString.quoted (escapes_write text.toList)
  rw [String.ofList_toList] at quoted
  rw [quote, ← List.singleton_append, spell_append, spell_append, ← List.append_assoc]
  exact quoted

end Strings

section Members

variable {lead gap : List Char}

theorem member_writes (left : IsSpacing (spell lead)) (right : IsSpacing (spell gap)) (entry : String × String) :
    WritesMember (spell (lead ++ member (':' :: gap) entry)) (entry.1, .string entry.2) := by
  have value := WritesItem.spaced right (.string (quote_writes entry.2)) spacing_nil
  have whole := WritesMember.keyed left (quote_writes entry.1) spacing_nil value
  have parts : lead ++ member (':' :: gap) entry = lead ++ quote entry.1 ++ [':'] ++ (gap ++ quote entry.2) := by
    simp [member]
  rw [List.append_nil, List.append_nil] at whole
  rw [parts, spell_append, spell_append, spell_append, spell_append]
  exact whole

theorem next_writes (left : IsSpacing (spell lead)) (right : IsSpacing (spell gap)) {front : List Char} {members : Members}
    (others : WritesMembers (spell front) members) (entry : String × String) :
    WritesMembers (spell (front ++ (',' :: lead) ++ member (':' :: gap) entry)) (members ++ Members.ofTexts [entry]) := by
  have more := WritesMembers.more others (member_writes left right entry)
  have parts : front ++ (',' :: lead) ++ member (':' :: gap) entry =
      front ++ [','] ++ (lead ++ member (':' :: gap) entry) := by simp
  rw [parts, spell_append, spell_append]
  exact more

-- What stands before the rest is any list of members, as the written list grows at its end.
theorem rest_writes (left : IsSpacing (spell lead)) (right : IsSpacing (spell gap)) {front : List Char} {members : Members}
    (others : WritesMembers (spell front) members) (first : String × String) (rest : List (String × String)) :
    WritesMembers
      (spell (front ++ (',' :: lead) ++ List.intercalate (',' :: lead) ((first :: rest).map (member (':' :: gap)))))
      (members ++ Members.ofTexts (first :: rest)) := by
  have next := next_writes left right others first
  induction rest generalizing front members first with
  | nil =>
    rw [List.map_singleton, List.intercalate_singleton]
    exact next
  | cons second rest ih =>
    have below := ih next second (next_writes left right next second)
    rw [List.map_cons, List.map_cons, List.intercalate_cons_cons, ← List.map_cons]
    simp only [List.append_assoc] at below ⊢
    exact below

theorem entries_write (left : IsSpacing (spell lead)) (right : IsSpacing (spell gap)) (first : String × String)
    (rest : List (String × String)) :
    WritesMembers (spell (lead ++ List.intercalate (',' :: lead) ((first :: rest).map (member (':' :: gap)))))
      (Members.ofTexts (first :: rest)) := by
  have one := WritesMembers.one (member_writes left right first)
  cases rest with
  | nil =>
    rw [List.map_singleton, List.intercalate_singleton]
    exact one
  | cons second rest =>
    have more := rest_writes left right one second rest
    rw [List.map_cons, List.map_cons, List.intercalate_cons_cons, ← List.map_cons]
    simp only [List.append_assoc] at more ⊢
    exact more

theorem object_writes {last : List Char} (left : IsSpacing (spell lead)) (right : IsSpacing (spell gap))
    (closing : IsSpacing (spell last)) {entries : List (String × String)} (nonempty : entries ≠ []) :
    WritesValue
      (spell ('{' :: (lead ++ List.intercalate (',' :: lead) (entries.map (member (':' :: gap))) ++ last ++ ['}'])))
      (.object (Members.ofTexts entries)) := by
  obtain ⟨first, rest, rfl⟩ := List.exists_cons_of_ne_nil nonempty
  have inside := members_space closing (entries_write left right first rest)
  rw [← spell_append] at inside
  rw [← List.singleton_append, spell_append, spell_append, ← List.append_assoc]
  exact .object inside

end Members

theorem compact_writes (entries : List (String × String)) :
    WritesItem (encode (compact entries)) (.object (Members.ofTexts entries)) := by
  rw [compact, encode_of_list]
  apply Reader.item_of_value spacing_nil
  by_cases empty : entries = []
  · subst empty
    exact .emptyObject spacing_nil
  · have none : IsSpacing (spell []) := spacing_nil
    have object := object_writes none none none empty
    rw [List.nil_append, List.append_nil] at object
    exact object

theorem pretty_writes (entries : List (String × String)) :
    WritesItem (encode (pretty entries)) (.object (Members.ofTexts entries)) := by
  rw [pretty, encode_of_list]
  apply Reader.item_of_value spacing_nil
  by_cases empty : entries = []
  · subst empty
    exact .emptyObject spacing_nil
  · have line : IsSpacing (spell (newLine 2)) := spell_spacing (by simp [newLine, IsSpace])
    have space : IsSpacing (spell [' ']) := spell_spacing (by simp [IsSpace])
    have closing : IsSpacing (spell (newLine 0)) := spell_spacing (by simp [newLine, IsSpace])
    rw [prettyAt, block, if_neg (by simpa using empty)]
    exact object_writes line space closing empty

section Lines

theorem escape_on_line (c : Char) : '\n' ∉ escapeChar c := by
  have digits : ∀ value < 16, '\n' ≠ Nat.digitChar value := by decide
  unfold escapeChar
  split_ifs with _ _ _ _ newline _ _ control
  any_goals decide
  · have high := digits (c.toNat / 16) (by omega)
    have low := digits (c.toNat % 16) (by omega)
    simp only [List.mem_cons, List.not_mem_nil, or_false, not_or]
    exact ⟨by decide, by decide, by decide, by decide, high, low⟩
  · exact fun member => newline (List.mem_singleton.mp member).symm

theorem quote_on_line (text : String) : '\n' ∉ quote text := by
  have escaped : '\n' ∉ text.toList.flatMap escapeChar := by
    intro member
    obtain ⟨c, -, escaped⟩ := List.mem_flatMap.mp member
    exact escape_on_line c escaped
  simp only [quote, List.mem_cons, List.mem_append, List.not_mem_nil, or_false, not_or]
  exact ⟨by decide, escaped, by decide⟩

theorem members_on_line (entries : List (String × String)) :
    '\n' ∉ List.intercalate [','] (entries.map (member [':'])) := by
  have single (entry : String × String) : '\n' ∉ member [':'] entry := by
    simp only [member, List.mem_append, List.mem_singleton, not_or]
    exact ⟨⟨quote_on_line entry.1, by decide⟩, quote_on_line entry.2⟩
  induction entries with
  | nil => exact List.not_mem_nil
  | cons first rest ih =>
    cases rest with
    | nil =>
      rw [List.map_singleton, List.intercalate_singleton]
      exact single first
    | cons second rest =>
      rw [List.map_cons, List.map_cons, List.intercalate_cons_cons, ← List.map_cons]
      simp only [List.mem_append, List.mem_singleton, not_or]
      exact ⟨⟨single first, by decide⟩, ih⟩

theorem compact_on_line (entries : List (String × String)) : 0x0A ∉ encode (compact entries) := by
  intro spelled
  rw [compact, encode_of_list] at spelled
  have member : '\n' ∈ _ := ascii_spelled (by decide) spelled
  simp only [List.mem_cons, List.mem_append, List.not_mem_nil, or_false] at member
  obtain opening | inside | closing := member
  · exact absurd opening (by decide)
  · exact members_on_line entries inside
  · exact absurd closing (by decide)

end Lines

end Writer

end ClientHints.Json
