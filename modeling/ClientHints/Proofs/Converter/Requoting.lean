import ClientHints.Proofs.Converter.Recognition
import ClientHints.Proofs.Document.Requoting
import ClientHints.Proofs.Json.Writer
import ClientHints.Proofs.Schema.Digits

set_option autoImplicit false

namespace ClientHints.Converter

open Json Json.Grammar

variable {c : Converter} {format : Format}

theorem bitness_member : Rule.Member (.document .sua) "bitness" (.shape .text) :=
  @Rule.Member.field .sua ⟨"bitness", .bitness, .text⟩ (by decide)

theorem version_member : Rule.Member (.document .sua) "platformVersion" (.shape .version) :=
  @Rule.Member.field .sua ⟨"platformVersion", .platformVersion, .version⟩ (by decide)

theorem platform_member : Rule.Member (.document .sua) "platform" (.shape .platform) :=
  @Rule.Member.field .sua ⟨"platform", .platform, .platform⟩ (by decide)

theorem model_member : Rule.Member (.document .ghev) "model" (.shape .text) :=
  @Rule.Member.field .ghev ⟨"model", .model, .text⟩ (by decide)

theorem item_requotes {rule : Rule} (takes : rule.TakesText) {n : Int} (least : -2 ^ 63 ≤ n) (greatest : n < 2 ^ 64) :
    RequotesItem rule ([] ++ Utf8.encode (Number.whole n).text ++ [])
        ([] ++ ([0x22] ++ Utf8.encode (Number.whole n).text ++ [0x22]) ++ []) ∧
      RequotesItem rule ([] ++ ([0x22] ++ Utf8.encode (Number.whole n).text ++ [0x22]) ++ [])
        ([] ++ Utf8.encode (Number.whole n).text ++ []) := by
  obtain ⟨l, written, exact, rfl⟩ := Literal.integer_written least greatest
  have spelled := integer_quoted written exact
  exact ⟨.spaced spacing_nil (.quoted takes written exact spelled rfl) spacing_nil,
    .spaced spacing_nil (.unquoted takes written exact spelled rfl) spacing_nil⟩

theorem document_ok_iff (input : Bytes) (root : Json) : c.document format input = .ok root ↔
    input.length ≤ c.limits.inputSize.toNat ∧ ∃ text, payload format input = .ok text ∧ Document.load c.limits text = .ok root := by
  constructor
  · intro loaded
    cases format with
    | ghev | sua => exact ⟨((Document.load_ok_iff_read c.limits input root).mp loaded).1, input, rfl, loaded⟩
    | ghevBase64 =>
      obtain ⟨fits, text, decoded, loaded⟩ := document_ghev_base64_ok loaded
      exact ⟨fits, text, (decode_base64_ok_iff input text).mpr decoded, loaded⟩
  · rintro ⟨fits, text, found, loaded⟩
    rw [Document.load, payload_fits fits found] at loaded
    rw [document_of_fits fits, found]
    exact loaded

theorem document_requoted {input other text rewritten : Bytes} {root : Json} (found : payload format input = .ok text)
    (alsoFound : payload format other = .ok rewritten) (requotes : RequotesItem (.document format.schema) text rewritten)
    (fits : other.length ≤ c.limits.inputSize.toNat) (loaded : c.document format input = .ok root) :
    ∃ otherRoot, c.document format other = .ok otherRoot ∧ Requoted (.document format.schema) root otherRoot := by
  obtain ⟨-, same, foundToo, loadedText⟩ := (document_ok_iff input root).mp loaded
  obtain rfl := Except.ok.inj (found.symm.trans foundToo)
  have short := (payload_length alsoFound).trans fits
  obtain ⟨otherRoot, alsoLoaded, requoted⟩ := Document.load_requoted requotes short loadedText
  exact ⟨otherRoot, (document_ok_iff other otherRoot).mpr ⟨fits, rewritten, alsoFound, alsoLoaded⟩, requoted⟩

theorem integers_stand_as_texts {input other : String} {text rewritten : Bytes}
    (found : payload format (Utf8.encode input) = .ok text) (alsoFound : payload format (Utf8.encode other) = .ok rewritten)
    (requotes : RequotesItem (.document format.schema) text rewritten)
    (fits : (Utf8.encode other).length ≤ c.limits.inputSize.toNat) {m : Evidence} (accepted : c.convert format input = .ok m) :
    c.convert format other = .ok m ∧
    ∃ members, c.document format (Utf8.encode input) = .ok (.object members) ∧
      ∀ digits l steps, WritesLiteral digits l → l.IsInteger →
        HoldsText (.document format.schema) (.object members) steps (.number (.whole l.integer)) →
        (steps.take 2 = [.member "platform", .member "version"] → Schema.explicitVersion? members = none) →
        ∃ hint value shown, m.get? (Hint.evidenceKey hint) = some value ∧ Utf8.encode shown = digits ∧
          StandsIn shown.toList value.toList := by
  obtain ⟨root, loaded, recorded⟩ := (convert_ok_iff c format input m).mp accepted
  constructor
  · obtain ⟨otherRoot, alsoLoaded, requoted⟩ := document_requoted found alsoFound requotes fits loaded
    rw [Schema.record_requoted requoted] at recorded
    exact (convert_ok_iff c format other m).mpr ⟨otherRoot, alsoLoaded, recorded⟩
  · obtain ⟨members, -, rfl, -, -⟩ := (Schema.record_ok_iff format root m).mp recorded
    refine ⟨members, loaded, fun digits l steps written exact held lasting => ?_⟩
    obtain ⟨hint, value, given, stands⟩ := Schema.record_tells recorded held lasting
    exact ⟨hint, value, _, given, Literal.integer_octets written exact, stands⟩

def wideText : String :=
  "\x7b\"bitness\":18446744073709551615,\"platformVersion\":[-9223372036854775808,\"0\"]\x7d"

def quotedText : String :=
  "\x7b\"bitness\":\"18446744073709551615\",\"platformVersion\":[\"-9223372036854775808\",0]\x7d"

def wideEvidence : Evidence := ⟨[
  ("header.sec-ch-ua-platform-version", "\"-9223372036854775808.0\""),
  ("header.sec-ch-ua-bitness", "\"18446744073709551615\"")]⟩

theorem wide_requotes : RequotesItem (.document .sua) (Utf8.encode wideText) (Utf8.encode quotedText) := by
  obtain ⟨greatest, -⟩ := item_requotes .text (n := 2 ^ 64 - 1) (by decide) (by decide)
  obtain ⟨least, -⟩ := item_requotes .text (n := -2 ^ 63) (by decide) (by decide)
  obtain ⟨-, zero⟩ := item_requotes .text (n := 0) (by decide) (by decide)
  have components := RequotesItem.spaced spacing_nil (.array .components (.more (.one least) zero)) spacing_nil
  have bitness := RequotesMember.known spacing_nil (Writer.quote_writes "bitness") spacing_nil bitness_member greatest
  have version := RequotesMember.known spacing_nil (Writer.quote_writes "platformVersion") spacing_nil version_member components
  have whole := RequotesItem.spaced spacing_nil (.object (.more (.one bitness) version)) spacing_nil
  convert whole using 1 <;> decide +kernel

theorem both_ends_stand_as_texts : standard.convert .sua quotedText = .ok wideEvidence ∧
    (∃ hint value shown, wideEvidence.get? (Hint.evidenceKey hint) = some value ∧
      Utf8.encode shown = Utf8.encode "-9223372036854775808" ∧ StandsIn shown.toList value.toList) ∧
    ∃ hint value shown, wideEvidence.get? (Hint.evidenceKey hint) = some value ∧
      Utf8.encode shown = Utf8.encode "18446744073709551615" ∧ StandsIn shown.toList value.toList := by
  have accepted : standard.convert .sua wideText = .ok wideEvidence := rfl
  obtain ⟨same, members, loaded, shows⟩ :=
    @integers_stand_as_texts standard .sua wideText quotedText _ _ rfl rfl wide_requotes (by decide +kernel) _ accepted
  have read : standard.document .sua (Utf8.encode wideText) = .ok (.object [("bitness", .number (.whole (2 ^ 64 - 1))),
    ("platformVersion", .array [.number (.whole (-2 ^ 63)), .string "0"])]) := rfl
  obtain rfl := object.inj (Except.ok.inj (loaded.symm.trans read))
  obtain ⟨least, writtenLeast, exactLeast, leastValue⟩ := Literal.integer_written (n := -2 ^ 63) (by decide) (by decide)
  obtain ⟨greatest, written, exact, value⟩ := Literal.integer_written (n := 2 ^ 64 - 1) (by decide) (by decide)
  refine ⟨same, shows _ least [.member "platformVersion", .item 0] writtenLeast exactLeast ?_ nofun,
    shows _ greatest [.member "bitness"] written exact ?_ nofun⟩
  · rw [leastValue]
    exact .member version_member rfl (.item .components rfl (.here .text))
  · rw [value]
    exact .member bitness_member rfl (.here .text)

section PassedOver

theorem stands_in_values {m : Evidence} {text : List Char} {hint : Hint} {value : String} (c : Char) (inside : c ∈ text)
    (given : m.get? hint.evidenceKey = some value) (stands : StandsIn text value.toList) :
    ∃ given ∈ m.values, c ∈ given.toList := by
  obtain ⟨left, right, opening, -, closing, -, around⟩ := stands
  obtain ⟨front, back, entries, -⟩ := List.lookup_eq_some_iff.mp given
  exact ⟨value, by simp [Evidence.values, entries], by simp [around, inside]⟩

def ownVersionText : String :=
  "\x7b\"platform\":\x7b\"brand\":\"x\",\"version\":7\x7d,\"platformVersion\":\"4\"\x7d"

def replacedText : String := "\x7b\"model\":7,\"model\":\"a\"\x7d"

def quotedReplacedText : String := "\x7b\"model\":\"7\",\"model\":\"a\"\x7d"

theorem replaced_requotes : RequotesItem (.document .ghev) (Utf8.encode replacedText) (Utf8.encode quotedReplacedText) := by
  obtain ⟨seven, -⟩ := item_requotes .text (n := 7) (by decide) (by decide)
  have name := Writer.quote_writes "model"
  have replaced := RequotesMember.known spacing_nil name spacing_nil model_member seven
  have last := WritesMember.keyed spacing_nil name spacing_nil
    (.spaced spacing_nil (.string (Writer.quote_writes "a")) spacing_nil)
  have whole := RequotesItem.spaced spacing_nil (.object (.more (.one replaced) (.kept last))) spacing_nil
  convert whole using 1 <;> decide +kernel

-- A version next to the platform hides the one that the platform carries, and a later member the earlier ones of its key.
theorem digits_may_be_passed_over :
    (¬∀ (format : Format) (input : String) (m : Evidence) (members : Members) (steps : List Step) (n : Int),
      standard.convert format input = .ok m → standard.document format (Utf8.encode input) = .ok (.object members) →
      HoldsText (.document format.schema) (.object members) steps (.number (.whole n)) →
      ∃ hint value, m.get? (Hint.evidenceKey hint) = some value ∧ StandsIn (Number.whole n).text.toList value.toList) ∧
    ¬∀ (input other : String) (m : Evidence) (before digits after : Bytes) (l : Literal),
      standard.convert .ghev input = .ok m → RequotesItem (.document .ghev) (Utf8.encode input) (Utf8.encode other) →
      WritesLiteral digits l → l.IsInteger → Utf8.encode input = before ++ digits ++ after →
      Utf8.encode other = before ++ ([0x22] ++ digits ++ [0x22]) ++ after →
      ∃ hint value shown, m.get? (Hint.evidenceKey hint) = some value ∧ Utf8.encode shown = digits ∧
        StandsIn shown.toList value.toList := by
  constructor
  · intro shows
    have held : HoldsText (.document .sua) (.object [("platform", .object [("brand", .string "x"), ("version", .number (.whole 7))]),
        ("platformVersion", .string "4")]) [.member "platform", .member "version"] (.number (.whole 7)) :=
      .member platform_member rfl (.member (.version .platform) rfl (.here .version))
    obtain ⟨hint, value, given, stands⟩ := shows .sua ownVersionText
      ⟨[("header.sec-ch-ua-platform", "\"x\""), ("header.sec-ch-ua-platform-version", "\"4\"")]⟩ _ _ 7 rfl rfl held
    exact absurd (stands_in_values '7' (by decide) given stands) (by decide)
  · intro shows
    obtain ⟨l, written, exact, -⟩ := Literal.integer_written (n := 7) (by decide) (by decide)
    obtain ⟨hint, value, shown, given, digits, stands⟩ := shows replacedText quotedReplacedText
      ⟨[("header.sec-ch-ua-model", "\"a\"")]⟩ (Utf8.encode "\x7b\"model\":") _ (Utf8.encode ",\"model\":\"a\"\x7d") l rfl
      replaced_requotes written exact (by decide +kernel) (by decide +kernel)
    obtain rfl := Utf8.encode_injective digits
    exact absurd (stands_in_values '7' (by decide) given stands) (by decide)

end PassedOver

end ClientHints.Converter
