import ClientHints.Proofs.Converter.Result
import ClientHints.Proofs.Schema.Printable

set_option autoImplicit false

namespace ClientHints

inductive Statement where
  | brands (list : List Brand)
  | text (value : String)
  | boolean (value : Bool)
  | strings (list : List String)
deriving DecidableEq, Repr

def Statement.header : Statement → String
  | .brands list => StructuredField.brands list
  | .text value => StructuredField.string value
  | .boolean value => StructuredField.boolean value
  | .strings list => StructuredField.strings list

def Hint.parse? (hint : Hint) (text : String) : Option Statement :=
  let admits := fun c => decide (Visible c)
  match hint with
  | .ua | .fullVersionList =>
    (StructuredField.parseList (StructuredField.readBrand admits) text).map .brands
  | .fullVersion | .platform | .platformVersion | .arch | .bitness | .model =>
    (StructuredField.parseString admits text).map .text
  | .mobile | .wow64 => (StructuredField.parseBoolean text).map .boolean
  | .formFactors => (StructuredField.parseList (StructuredField.readString admits) text).map .strings

def Statement.IsPrintable : Statement → Prop
  | .brands list => ∀ brand ∈ list, PrintableBrand brand
  | .text value => Printable value
  | .boolean _ => True
  | .strings list => ∀ text ∈ list, Printable text

namespace Profile

def states (p : Profile) : Hint → Option Statement
  | .ua => p.ua.map .brands
  | .fullVersionList => p.fullVersionList.map .brands
  | .fullVersion => p.fullVersion.map .text
  | .platform => p.platform.map .text
  | .platformVersion => p.platformVersion.map .text
  | .arch => p.arch.map .text
  | .bitness => p.bitness.map .text
  | .model => p.model.map .text
  | .mobile => p.mobile.map .boolean
  | .wow64 => p.wow64.map .boolean
  | .formFactors => p.formFactors.map .strings

theorem header_eq_states (p : Profile) (hint : Hint) : p.header hint = (p.states hint).map Statement.header := by
  cases hint <;> simp only [header, states, Option.map_map] <;> rfl

end Profile

theorem printable_header (statement : Statement) (printable : statement.IsPrintable) :
    Printable statement.header := by
  cases statement with
  | brands list => exact printable_brands list printable
  | text value => exact printable_string value printable
  | boolean flag => exact printable_boolean flag
  | strings list => exact printable_strings list printable

section Parsed

variable {p : Profile} (printable : p.IsPrintable)
include printable

theorem states_printable (hint : Hint) (statement : Statement) (stated : p.states hint = some statement) :
    statement.IsPrintable := by
  cases hint <;> obtain ⟨value, found, rfl⟩ := Option.map_eq_some_iff.mp stated
  case ua => exact printable.ua value found
  case fullVersionList => exact printable.fullVersionList value found
  case fullVersion => exact printable.fullVersion value found
  case platform => exact printable.platform value found
  case platformVersion => exact printable.platformVersion value found
  case arch => exact printable.arch value found
  case bitness => exact printable.bitness value found
  case model => exact printable.model value found
  case mobile => trivial
  case wow64 => trivial
  case formFactors => exact printable.formFactors value found

theorem parse_states (hint : Hint) (statement : Statement) (stated : p.states hint = some statement) :
    hint.parse? statement.header = some statement := by
  have visible := states_printable printable hint statement stated
  have admitted (text : String) (sound : Printable text) : ∀ c ∈ text.toList, decide (Visible c) = true := fun c member =>
    decide_eq_true (sound c member)
  have brands (list : List Brand) (sound : ∀ brand ∈ list, PrintableBrand brand) :
      StructuredField.parseList (StructuredField.readBrand fun c => decide (Visible c))
        (StructuredField.brands list) = some list :=
    StructuredField.parse_brands list (fun brand member => admitted _ (sound brand member).name)
      fun brand member text carried => admitted _ ((sound brand member).version text carried)
  have text (value : String) (sound : Printable value) :
      StructuredField.parseString (fun c => decide (Visible c)) (StructuredField.string value) = some value :=
    StructuredField.parse_string value (admitted value sound)
  have strings (list : List String) (sound : ∀ text ∈ list, Printable text) :
      StructuredField.parseList (StructuredField.readString fun c => decide (Visible c))
        (StructuredField.strings list) = some list :=
    StructuredField.parse_strings list fun value member => admitted value (sound value member)
  cases hint <;> obtain ⟨value, found, rfl⟩ := Option.map_eq_some_iff.mp stated
  case ua | fullVersionList => simp only [Hint.parse?, Statement.header, brands value visible, Option.map_some]
  case fullVersion | platform | platformVersion | arch | bitness | model =>
    simp only [Hint.parse?, Statement.header, text value visible, Option.map_some]
  case mobile | wow64 => simp only [Hint.parse?, Statement.header, StructuredField.parse_boolean, Option.map_some]
  case formFactors => simp only [Hint.parse?, Statement.header, strings value visible, Option.map_some]

end Parsed

theorem profile_entry_iff {p : Profile} (printable : p.IsPrintable) (hint : Hint) (value : String) :
    (hint.evidenceKey, value) ∈ p.evidence.entries ↔
      ∃ statement, p.states hint = some statement ∧ statement.header = value ∧ Printable value ∧
        hint.parse? value = some statement := by
  rw [Profile.evidence, Evidence.mem_of_hints, p.header_eq_states, Option.map_eq_some_iff]
  constructor
  · rintro ⟨statement, stated, rfl⟩
    exact ⟨statement, stated, rfl, printable_header statement (states_printable printable hint statement stated),
      parse_states printable hint statement stated⟩
  · rintro ⟨statement, stated, written, -, -⟩
    exact ⟨statement, stated, written⟩

theorem accepted_evidence_is_faithful (c : Converter) (format : Format) (input : String) (m : Evidence)
    (accepted : c.convert format input = .ok m) :
    m.keys.Nodup ∧
    (∃ hints : List Hint, hints.Sublist Hint.all ∧ m.keys = hints.map Hint.evidenceKey) ∧
    (∀ value ∈ m.values, ∀ b ∈ Utf8.encode value, 0x20 ≤ b ∧ b ≤ 0x7E) ∧
    ∃ members p, c.document format (Utf8.encode input) = .ok (.object members) ∧ format.Describes members p ∧
      (∀ hint value, (hint.evidenceKey, value) ∈ m.entries →
        ∃ statement, p.states hint = some statement ∧ hint.parse? value = some statement) ∧
      ∀ hint statement, p.states hint = some statement → ∃ value, (hint.evidenceKey, value) ∈ m.entries := by
  obtain ⟨root, loaded, recorded⟩ := (Converter.convert_ok_iff c format input m).mp accepted
  obtain ⟨members, p, rfl, described, rfl⟩ := (Schema.record_ok_iff format root m).mp recorded
  have printable := describes_printable described
  have keys : p.evidence.keys = (Hint.all.filter fun hint => (p.header hint).isSome).map Hint.evidenceKey :=
    Evidence.of_hints_keys p.header
  refine ⟨Evidence.of_hints_keys_nodup p.header, ⟨_, List.filter_sublist, keys⟩, ?_, members, p, loaded, described,
    ?_, ?_⟩
  · intro value member
    obtain ⟨⟨key, _⟩, inside, rfl⟩ := List.mem_map.mp member
    have known : key ∈ p.evidence.keys := List.mem_map_of_mem inside
    rw [keys] at known
    obtain ⟨hint, -, rfl⟩ := List.mem_map.mp known
    obtain ⟨_, _, _, sound, _⟩ := (profile_entry_iff printable hint _).mp inside
    exact printable_octets _ sound
  · intro hint value inside
    obtain ⟨statement, stated, -, -, parsed⟩ := (profile_entry_iff printable hint value).mp inside
    exact ⟨statement, stated, parsed⟩
  · intro hint statement stated
    have sound := states_printable printable hint statement stated
    exact ⟨statement.header, (profile_entry_iff printable hint _).mpr ⟨statement, stated, rfl,
      printable_header statement sound, parse_states printable hint statement stated⟩⟩

def hostileText : String :=
  "\x7b\"browsers\":[\x7b\"brand\":\"a\\\", \\\\b;v=\",\"version\":[1,\"2\"]\x7d],\"platform\":\x7b\"brand\":\"x\"\x7d,\"mobile\":1\x7d"

def hostileEvidence : Evidence := ⟨[
  ("header.sec-ch-ua-full-version-list", "\"a\\\", \\\\b;v=\";v=\"1.2\""),
  ("header.sec-ch-ua-platform", "\"x\""),
  ("header.sec-ch-ua-mobile", "?1")]⟩

set_option maxRecDepth 4000 in
theorem hostile_evidence_is_faithful :
    Converter.standard.convert .sua hostileText = .ok hostileEvidence ∧ hostileEvidence.keys.Nodup :=
  have accepted : Converter.standard.convert .sua hostileText = .ok hostileEvidence := rfl
  ⟨accepted, (accepted_evidence_is_faithful .standard .sua hostileText hostileEvidence accepted).1⟩

end ClientHints
