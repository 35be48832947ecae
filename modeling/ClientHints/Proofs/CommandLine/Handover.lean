import ClientHints.Proofs.CommandLine.Report
import ClientHints.Proofs.Converter.Result

set_option autoImplicit false

namespace ClientHints

open Json

namespace Base64

theorem sign_visible {b : UInt8} (sign : IsSign b) : Blank.isBlank (Char.ofNat b.toNat) = false := by
  have letters : ∀ value < 64, Blank.isBlank (Char.ofNat (letter value).toNat) = false := by decide
  obtain rfl | ⟨value, bound, rfl⟩ := sign
  · decide
  · exact letters value bound

theorem encode_text_visible (octets : Bytes) : ∀ c ∈ (encodeText octets).toList, Blank.isBlank c = false := by
  intro c member
  rw [encodeText, String.toList_ofList] at member
  obtain ⟨b, written, rfl⟩ := List.mem_map.mp member
  exact sign_visible (encode_signs octets b written)

theorem encode_text_trim (octets : Bytes) : Blank.trim (encodeText octets ++ "\n") = encodeText octets := by
  have padded : Blank.trim ("" ++ encodeText octets ++ "\n") = Blank.trim (encodeText octets) :=
    Blank.trim_padded (encodeText octets) nofun (List.all_eq_true.mp (by decide))
  rw [String.empty_append] at padded
  rw [padded, Blank.trim_visible (encode_text_visible octets)]

end Base64

namespace Converter

open Document

section Encoded

variable {c : Converter} {octets : Bytes} (fits : (Base64.encode octets).length ≤ c.limits.inputSize.toNat)
include fits

theorem convert_encoded : c.convert .ghevBase64 (Base64.encodeText octets) = load c.limits octets >>= resultOf .ghev := by
  rw [convert_eq, Base64.encode_text_octets, document_of_encoded c octets fits]
  rfl

theorem encoded_fits : octets.length ≤ c.limits.inputSize.toNat := by
  rw [Base64.encode_length] at fits
  omega

theorem encoded_spaced {spacing : Bytes} {text : String} {m : Evidence} (accepted : c.convert .ghev text = .ok m)
    (shape : octets = spacing ++ Utf8.encode text) (blank : Grammar.IsSpacing spacing) :
    c.convert .ghevBase64 (Base64.encodeText octets) = .ok m := by
  obtain ⟨root, loaded, recorded⟩ := (convert_ok_iff c .ghev text m).mp accepted
  obtain ⟨-, found, shallow⟩ := (load_ok_iff_read c.limits _ root).mp loaded
  have spaced : load c.limits octets = .ok root := by
    rw [← read_spacing blank, ← shape] at found
    exact (load_ok_iff_read c.limits octets root).mpr ⟨encoded_fits fits, found, shallow⟩
  rw [convert_encoded fits, spaced]
  exact (result_ok_iff .ghev root m).mpr recorded

theorem encoded_refused {fault : Fault} (refused : read octets = .error fault) :
    c.convert .ghevBase64 (Base64.encodeText octets) = .error (.malformedJson fault.reason (fault.place octets)) := by
  have sized := (check_size_ok_iff c.limits octets.length).mpr (encoded_fits fits)
  rw [convert_encoded fits, load, sized, parse, refused]
  rfl

end Encoded

theorem accepted_filled {c : Converter} {text : String} {m : Evidence} (accepted : c.convert .ghev text = .ok m) :
    text ≠ "" := by
  rintro rfl
  obtain ⟨root, loaded, -⟩ := (convert_ok_iff c .ghev "" m).mp accepted
  obtain ⟨-, found, -⟩ := (load_ok_iff_read c.limits _ root).mp loaded
  cases found

end Converter

namespace CommandLine

def Conversion.withFormat (conversion : Conversion) (format : Format) : Conversion :=
  { conversion with format := format }

section Runs

variable {arguments : List String}

theorem formatted_output {conversion : Conversion} {format : Format}
    (parsed : Command.ofArguments? arguments = some (.convert (conversion.withFormat format))) (input : String) :
    (session arguments).outputOn (Utf8.encode input) =
      conversion.output (conversion.converter.convert format (Blank.trim input)) :=
  output_on_text parsed input

theorem output_success {conversion : Conversion} {result : Except Rejection Evidence}
    (succeeds : (conversion.output result).exitCode = 0) : ∃ m, result = .ok m := by
  cases result with
  | ok m => exact ⟨m, rfl⟩
  | error rejection => cases succeeds

theorem encoding_output {source : Source} (parsed : Command.ofArguments? arguments = some (.encode source))
    (input : String) :
    (session arguments).outputOn (Utf8.encode input) =
      .print (Base64.encodeText (Utf8.encode (Blank.trimEnd input))) := by
  simp only [session, parsed, Command.session, Session.outputOn, encoded, text_encode]
  rfl

end Runs

-- White space at the start is left out before the one conversion, and stands before the document in the other.
theorem encoding_hands_over {first encoding second : List String} {conversion : Conversion} {source : Source}
    (plain : Command.ofArguments? first = some (.convert (conversion.withFormat .ghev)))
    (encodes : Command.ofArguments? encoding = some (.encode source))
    (decodes : Command.ofArguments? second = some (.convert (conversion.withFormat .ghevBase64)))
    (input : String) (succeeds : ((session first).outputOn (Utf8.encode input)).exitCode = 0) :
    ∃ line, (session encoding).outputOn (Utf8.encode input) = .print line ∧
      ((Utf8.encode line).length ≤ (conversion.inputSize.getD 65536).toNat →
        ((∀ c ∈ Blank.leading input, IsSpace c) →
          (session second).outputOn (Utf8.encode (line ++ "\n")) = (session first).outputOn (Utf8.encode input)) ∧
        ((∃ c ∈ Blank.leading input, ¬IsSpace c) →
          ∃ place, (session second).outputOn (Utf8.encode (line ++ "\n")) =
            .fail (.rejected (.malformedJson .expectedValue place)))) := by
  rw [formatted_output plain] at succeeds ⊢
  obtain ⟨m, accepted⟩ := output_success succeeds
  have whole := Blank.trim_end_eq (Converter.accepted_filled accepted)
  have octets : Utf8.encode (Blank.trimEnd input) = Utf8.spell (Blank.leading input) ++ Utf8.encode (Blank.trim input) := by
    rw [whole, Utf8.encode_append, Utf8.encode_of_list]
  refine ⟨_, encoding_output encodes input, fun fits => ?_⟩
  rw [Base64.encode_text_octets] at fits
  rw [formatted_output decodes, Base64.encode_text_trim]
  constructor
  · intro spaces
    rw [Converter.encoded_spaced fits accepted octets (spell_spacing spaces), accepted]
  · rintro ⟨c, member, other⟩
    obtain ⟨behind, refused⟩ := read_blank (Blank.leading_blank input) member other (Blank.trim input).toList
    rw [Utf8.spell_append, ← Utf8.encode_eq_spell, ← octets] at refused
    rw [Converter.encoded_refused fits refused]
    exact ⟨_, rfl⟩

def plainArguments : List String := ["transform", "--format", "ghev"]

def base64Arguments : List String := ["transform", "--format", "ghev-base64"]

def usualConversion : Conversion := ⟨.ghev, .standardInput, false, 16, none⟩

theorem print_injective {text other : String} (same : Output.print text = Output.print other) : text = other := by
  simpa [Output.print] using same

theorem tab_is_handed_over :
    (session base64Arguments).outputOn (Utf8.encode "CXt9\n") =
        (session plainArguments).outputOn (Utf8.encode "\t\x7b\x7d") ∧
      ∃ place, (session base64Arguments).outputOn (Utf8.encode "wqB7fQ==\n") =
        .fail (.rejected (.malformedJson .expectedValue place)) := by
  have plain : Command.ofArguments? plainArguments = some (.convert (usualConversion.withFormat .ghev)) := rfl
  have decodes : Command.ofArguments? base64Arguments = some (.convert (usualConversion.withFormat .ghevBase64)) := rfl
  have encodes : Command.ofArguments? ["encode"] = some (.encode .standardInput) := rfl
  constructor
  · obtain ⟨line, printed, handed⟩ := encoding_hands_over plain encodes decodes "\t\x7b\x7d" (by decide +kernel)
    have known : (session ["encode"]).outputOn (Utf8.encode "\t\x7b\x7d") = .print "CXt9" := by decide +kernel
    have leading : Blank.leading "\t\x7b\x7d" = ['\t'] := by decide +kernel
    obtain rfl := print_injective (known.symm.trans printed)
    exact (handed (by decide +kernel)).1 (by simp [leading, IsSpace])
  · obtain ⟨line, printed, handed⟩ := encoding_hands_over plain encodes decodes "\u00a0\x7b\x7d" (by decide +kernel)
    have known : (session ["encode"]).outputOn (Utf8.encode "\u00a0\x7b\x7d") = .print "wqB7fQ==" := by decide +kernel
    have leading : Blank.leading "\u00a0\x7b\x7d" = ['\u00a0'] := by decide +kernel
    obtain rfl := print_injective (known.symm.trans printed)
    exact (handed (by decide +kernel)).2 (by simp [leading, IsSpace])

theorem no_break_space_is_not_handed_over :
    ¬∀ input document line,
      (session plainArguments).outputOn (Utf8.encode input) = .print document →
      (session ["encode"]).outputOn (Utf8.encode input) = .print line → (Utf8.encode line).length ≤ 65536 →
      (session base64Arguments).outputOn (Utf8.encode (line ++ "\n")) = .print document := by
  intro handed
  have converted := handed "\u00a0\x7b\x7d" "\x7b\x7d" "wqB7fQ==" (by decide +kernel) (by decide +kernel) (by decide +kernel)
  exact absurd converted (by decide +kernel)

end CommandLine

end ClientHints
