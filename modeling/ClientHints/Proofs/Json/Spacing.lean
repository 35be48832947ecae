import ClientHints.Proofs.Json.Completeness
import ClientHints.Text

set_option autoImplicit false

namespace ClientHints.Json

open Grammar Utf8

def IsSpace (c : Char) : Prop := c = ' ' ∨ c = '\t' ∨ c = '\n' ∨ c = '\r'

instance : DecidablePred IsSpace := fun c =>
  inferInstanceAs (Decidable (c = ' ' ∨ c = '\t' ∨ c = '\n' ∨ c = '\r'))

theorem spell_spacing {chars : List Char} (spaces : ∀ c ∈ chars, IsSpace c) : IsSpacing (spell chars) := by
  intro b spelled
  obtain ⟨c, member, octet⟩ := List.mem_flatMap.mp spelled
  obtain rfl | rfl | rfl | rfl := spaces c member
  · exact .inl (List.mem_singleton.mp octet)
  · exact .inr (.inl (List.mem_singleton.mp octet))
  · exact .inr (.inr (.inl (List.mem_singleton.mp octet)))
  · exact .inr (.inr (.inr (List.mem_singleton.mp octet)))

theorem read_spacing {spacing : Bytes} (blank : IsSpacing spacing) (text : Bytes) : read (spacing ++ text) = read text := by
  rw [read, read, Reader.start, Reader.feed_on (Reader.feed_spacing blank .value []) text]

namespace Reader

-- Octets with which white space begins that JSON does not know.
def IsForeign (b : UInt8) : Prop := b = 0x0B ∨ b = 0x0C ∨ 0x80 ≤ b

instance : DecidablePred IsForeign := fun b => inferInstanceAs (Decidable (b = 0x0B ∨ b = 0x0C ∨ 0x80 ≤ b))

theorem foreign_begins {c : Char} (blank : Blank.isBlank c = true) (other : ¬IsSpace c) :
    ∃ b rest, String.utf8EncodeChar c = b :: rest ∧ IsForeign b := by
  by_cases ascii : c.toNat < 0x80
  · refine ⟨_, [], encode_char_ascii c ascii, ?_⟩
    have table : ∀ n < 0x80, Blank.isBlank (Char.ofNat n) = true → ¬IsSpace (Char.ofNat n) →
        IsForeign (UInt8.ofNat n) := by decide
    rw [← Char.ofNat_toNat c] at blank other
    exact table c.toNat ascii blank other
  · have filled : String.utf8EncodeChar c ≠ [] := List.ne_nil_of_length_pos (by simpa using c.utf8Size_pos)
    obtain ⟨b, rest, shape⟩ := List.exists_cons_of_ne_nil filled
    have large := encode_char_large (Nat.not_lt.mp ascii) b (shape ▸ List.mem_cons_self)
    exact ⟨b, rest, shape, .inr (.inr (UInt8.le_iff_toNat_le.mpr large))⟩

theorem foreign_refused {b : UInt8} (foreign : IsForeign b) (outer : List Context) :
    step (.between .value outer) b = refuse .expectedValue := by
  have table : ∀ b, IsForeign b → isSpace b = false ∧ Numeral.digit? b = none ∧ b ≠ 0x22 ∧ b ≠ 0x5B ∧ b ≠ 0x7B ∧
      b ≠ 0x6E ∧ b ≠ 0x74 ∧ b ≠ 0x66 ∧ b ≠ 0x2D := octet_forall (by decide +kernel)
  obtain ⟨visible, noDigit, quote, bracket, brace, null, yes, no, minus⟩ := table b foreign
  have refused : (Numeral.start false).step b = .refused .invalidNumber := by
    simp only [Numeral.step, Numeral.start, noDigit]
  simp [step, pass, visible, mark, begin, quote, bracket, brace, null, yes, no, minus, refused]

end Reader

theorem read_foreign {spacing : Bytes} (blank : IsSpacing spacing) {b : UInt8} (foreign : Reader.IsForeign b)
    (rest : Bytes) : read (spacing ++ b :: rest) = .error ⟨.expectedValue, rest.length, 0⟩ := by
  rw [read_spacing blank, read, Reader.start, Reader.feed, Reader.foreign_refused foreign]
  rfl

theorem read_blank {blanks : List Char} {c : Char} (blank : ∀ c ∈ blanks, Blank.isBlank c = true) (member : c ∈ blanks)
    (other : ¬IsSpace c) (back : List Char) :
    ∃ behind, read (spell (blanks ++ back)) = .error ⟨.expectedValue, behind, 0⟩ := by
  have found : (blanks.find? fun c => !decide (IsSpace c)).isSome :=
    List.find?_isSome.mpr ⟨c, member, by simpa using other⟩
  obtain ⟨stop, first⟩ := Option.isSome_iff_exists.mp found
  obtain ⟨foreign, front, rest, rfl, spaces⟩ := List.find?_eq_some_iff_append.mp first
  obtain ⟨b, more, shape, begun⟩ := Reader.foreign_begins (blank stop (by simp)) (by simpa using foreign)
  have octets : spell (front ++ stop :: rest ++ back) = spell front ++ b :: (more ++ spell (rest ++ back)) := by
    rw [List.append_assoc, spell_append]
    change spell front ++ (String.utf8EncodeChar stop ++ spell (rest ++ back)) = _
    rw [shape]
    rfl
  rw [octets]
  exact ⟨_, read_foreign (spell_spacing (by simpa using spaces)) begun _⟩

end ClientHints.Json
