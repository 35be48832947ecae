import ClientHints.CommandLine.Session
import ClientHints.Proofs.Evidence.Serialization
import ClientHints.Proofs.Schema.Profile
import ClientHints.Proofs.Text.Blank

set_option autoImplicit false

namespace ClientHints

open Json Json.Grammar

namespace Document

-- A text is read as a tree. The widest limits refuse it only at a size that no text in memory has.
def Loads (text : String) (root : Json) : Prop :=
  parse (Utf8.encode text) = .ok root ∧
    ((Utf8.encode text).length < 2 ^ 64 → load .unbounded (Utf8.encode text) = .ok root)

theorem texts_load {text : String} {entries : List (String × String)}
    (listed : WritesItem (Utf8.encode text) (.object (Members.ofTexts entries))) :
    Loads text (.object (Members.ofList (Members.ofTexts entries))) :=
  have found := texts_read listed
  ⟨found, fun fits => (load_unbounded_iff fits _).mpr found⟩

theorem ended_line_writes {line : String} {written : Json} (listed : WritesItem (Utf8.encode line) written) :
    WritesItem (Utf8.encode (line ++ "\n")) written := by
  have newline : IsSpacing (Utf8.spell ['\n']) := spell_spacing (by simp [IsSpace])
  rw [Utf8.encode_append, Utf8.encode_eq_spell "\n"]
  exact item_space newline listed

theorem line_loads {line : String} {entries : List (String × String)}
    (listed : WritesItem (Utf8.encode line) (.object (Members.ofTexts entries))) :
    ∀ printed ∈ [line, line ++ "\n"], Loads printed (.object (Members.ofList (Members.ofTexts entries))) := by
  intro printed layout
  obtain rfl | rfl := List.mem_pair.mp layout
  · exact texts_load listed
  · exact texts_load (ended_line_writes listed)

end Document

namespace Evidence

def members (m : Evidence) : Members :=
  Members.ofList (Members.ofTexts m.entries)

theorem members_perm {m : Evidence} (distinct : m.keys.Nodup) : m.members.Perm (Members.ofTexts m.entries) :=
  Members.of_list_perm (texts_keys m ▸ distinct)

end Evidence

theorem Converter.convert_keys_nodup {c : Converter} {format : Format} {input : String} {m : Evidence}
    (accepted : c.convert format input = .ok m) : m.keys.Nodup := by
  obtain ⟨root, -, recorded⟩ := (Converter.convert_ok_iff c format input m).mp accepted
  obtain ⟨-, p, -, -, rfl⟩ := (Schema.record_ok_iff format root m).mp recorded
  exact Evidence.of_hints_keys_nodup p.header

namespace CommandLine

def Session.outputOn (octets : Bytes) : Session → Output
  | .done output => output
  | .reading _ answer => answer (.ok octets)

structure Output.Reports (output : Output) (result : Except Rejection Evidence) : Prop where
  succeeds : output.exitCode = 0 ↔ ∃ m, result = .ok m
  accepted : ∀ m, result = .ok m → output.stderr = "" ∧
    ∃ document, output.stdout = document ++ "\n" ∧ m.members.Perm (Members.ofTexts m.entries) ∧
      ∀ printed ∈ [document, output.stdout], Document.Loads printed (.object m.members)
  rejected : ∀ rejection, result = .error rejection → output.exitCode = 1 ∧ output.stdout = "" ∧
    ∃ line members, output.stderr = line ++ "\n" ∧ 0x0A ∉ Utf8.encode line ∧
      Members.get? "code" members = some (.string rejection.code) ∧
      Members.get? "message" members = some (.string rejection.message) ∧
      ∀ printed ∈ [line, output.stderr], Document.Loads printed (.object members)

theorem print_reports {document : String} {m : Evidence} (distinct : m.keys.Nodup)
    (listed : WritesItem (Utf8.encode document) (.object (Members.ofTexts m.entries))) :
    (Output.print document).Reports (.ok m) where
  succeeds := ⟨fun _ => ⟨m, rfl⟩, fun _ => rfl⟩
  accepted := by
    rintro _ ⟨⟩
    exact ⟨rfl, document, rfl, Evidence.members_perm distinct, Document.line_loads listed⟩
  rejected := nofun

def Failure.members (failure : Failure) : List (String × String) :=
  [("code", failure.code), ("message", failure.message), ("hint", failure.advice)]

theorem failure_line (failure : Failure) :
    ∃ line members, (Output.fail failure).stderr = line ++ "\n" ∧ 0x0A ∉ Utf8.encode line ∧
      Members.get? "code" members = some (.string failure.code) ∧
      Members.get? "message" members = some (.string failure.message) ∧
      Members.get? "hint" members = some (.string failure.advice) ∧
      ∀ printed ∈ [line, (Output.fail failure).stderr], Document.Loads printed (.object members) := by
  refine ⟨Writer.compact failure.members, _, rfl, Writer.compact_on_line _, ?_, ?_, ?_,
    Document.line_loads (Writer.compact_writes _)⟩
  all_goals
    rw [Members.get_of_list]
    rfl

theorem fail_reports (rejection : Rejection) : (Output.fail (.rejected rejection)).Reports (.error rejection) where
  succeeds := ⟨nofun, nofun⟩
  accepted := nofun
  rejected := by
    rintro _ ⟨⟩
    obtain ⟨line, members, written, single, code, message, -, loads⟩ := failure_line (.rejected rejection)
    exact ⟨rfl, rfl, line, members, written, single, code, message, loads⟩

section Reading

theorem text_encode (input : String) : text (.ok (Utf8.encode input)) = .ok input := by
  rw [text, Utf8.encode_eq_spell, Utf8.decode_spell, String.ofList_toList]

def Conversion.layout (conversion : Conversion) (m : Evidence) : String :=
  if conversion.pretty then m.pretty else m.compact

theorem layout_writes (conversion : Conversion) (m : Evidence) :
    WritesItem (Utf8.encode (conversion.layout m)) (.object (Members.ofTexts m.entries)) := by
  unfold Conversion.layout
  split
  · exact Writer.pretty_writes m.entries
  · exact Writer.compact_writes m.entries

def Conversion.output (conversion : Conversion) : Except Rejection Evidence → Output
  | .ok m => .print (conversion.layout m)
  | .error rejection => .fail (.rejected rejection)

theorem output_reports (conversion : Conversion) {result : Except Rejection Evidence}
    (distinct : ∀ m, result = .ok m → m.keys.Nodup) : (conversion.output result).Reports result := by
  cases result with
  | ok m => exact print_reports (distinct m rfl) (layout_writes conversion m)
  | error rejection => exact fail_reports rejection

theorem unread_source_fails {arguments : List String} {source : Source} {answer : Except ReadFault Bytes → Output}
    (asks : session arguments = .reading source answer) (fault : ReadFault) :
    answer (.error fault) = .fail (.unreadable fault) := by
  unfold session at asks
  split at asks
  case h_2 => cases asks
  case h_1 command parsed =>
    cases command with
    | convert | encode =>
      obtain ⟨rfl, rfl⟩ := Session.reading.inj asks
      rfl
    | hints | version => cases asks

theorem output_on_text {arguments : List String} {conversion : Conversion}
    (parsed : Command.ofArguments? arguments = some (.convert conversion)) (input : String) :
    (session arguments).outputOn (Utf8.encode input) =
      conversion.output (conversion.converter.convert conversion.format (Blank.trim input)) := by
  simp only [session, parsed, Command.session, Session.outputOn, Conversion.answer, text_encode, bind, Except.bind]
  cases conversion.converter.convert conversion.format (Blank.trim input) with
  | ok m => rfl
  | error rejection => rfl

end Reading

theorem conversion_is_reported {arguments : List String} {conversion : Conversion}
    (parsed : Command.ofArguments? arguments = some (.convert conversion)) (capacity : UInt32) (input : String) :
    ((session arguments).outputOn (Utf8.encode input)).Reports
        ((Converter.mk capacity ⟨conversion.inputSize.getD 65536, 16⟩).convert conversion.format (Blank.trim input)) ∧
      ∀ before after : String, (∀ c ∈ before.toList, Blank.isBlank c = true) →
        (∀ c ∈ after.toList, Blank.isBlank c = true) →
        (session arguments).outputOn (Utf8.encode (before ++ input ++ after)) =
          (session arguments).outputOn (Utf8.encode input) := by
  constructor
  · rw [output_on_text parsed]
    exact output_reports conversion fun m => Converter.convert_keys_nodup
  · intro before after left right
    rw [output_on_text parsed, output_on_text parsed, Blank.trim_padded input left right]

def indentedArguments : List String := ["transform", "--format=sua", "--pretty", "--capacity", "3"]

theorem padded_input_is_reported :
    Command.ofArguments? indentedArguments =
        some (.convert ⟨.sua, .standardInput, true, 3, none⟩) ∧
      ((session indentedArguments).outputOn
        (Utf8.encode ("\u2003" ++ "\x7b\"mobile\":1\x7d" ++ "\r\n"))).Reports
          (.ok ⟨[("header.sec-ch-ua-mobile", "?1")]⟩) ∧
      ((session indentedArguments).outputOn
        (Utf8.encode "\"\\\"")).Reports (.error (.malformedJson .endInString ⟨1, 3⟩)) := by
  have parsed : Command.ofArguments? indentedArguments =
      some (.convert ⟨.sua, .standardInput, true, 3, none⟩) := rfl
  have evidence : (Converter.mk 0 ⟨65536, 16⟩).convert .sua (Blank.trim "\x7b\"mobile\":1\x7d") =
      .ok ⟨[("header.sec-ch-ua-mobile", "?1")]⟩ := by decide +kernel
  have reason : (Converter.mk 0 ⟨65536, 16⟩).convert .sua (Blank.trim "\"\\\"") =
      .error (.malformedJson .endInString ⟨1, 3⟩) := by decide +kernel
  obtain ⟨accepted, padded⟩ := conversion_is_reported parsed 0 "\x7b\"mobile\":1\x7d"
  obtain ⟨rejected, -⟩ := conversion_is_reported parsed 0 "\"\\\""
  rw [← padded "\u2003" "\r\n" (List.all_eq_true.mp (by decide)) (List.all_eq_true.mp (by decide))] at accepted
  simp only [Option.getD_none, evidence, reason] at accepted rejected
  exact ⟨parsed, accepted, rejected⟩

end CommandLine

end ClientHints
