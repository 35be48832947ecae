import ClientHints.Proofs.Converter.Limits
import ClientHints.Proofs.Schema.Agreement

set_option autoImplicit false

namespace ClientHints.Converter

open Json Json.Grammar

def Lists (format : Format) (input : Bytes) (listed : Members) : Prop :=
  ∃ text written, payload format input = .ok text ∧ WritesItem text (.object written) ∧ SettlesMembers written listed

variable {c : Converter} {format : Format}

theorem document_reads {input : Bytes} {root : Json} (loaded : c.document format input = .ok root) :
    ∃ text, payload format input = .ok text ∧ read text = .ok root := by
  cases format with
  | ghev | sua => exact ⟨input, rfl, ((Document.load_ok_iff_read c.limits input root).mp loaded).2.1⟩
  | ghevBase64 =>
    obtain ⟨-, text, decoded, loaded⟩ := document_ghev_base64_ok loaded
    exact ⟨text, (decode_base64_ok_iff input text).mpr decoded, ((Document.load_ok_iff_read c.limits text root).mp loaded).2.1⟩

theorem document_lists {input : Bytes} {members : Members} (loaded : c.document format input = .ok (.object members)) :
    ∃ listed, Lists format input listed := by
  obtain ⟨text, found, accepted⟩ := document_reads loaded
  obtain ⟨written, listed, settles, -⟩ := read_writes accepted
  cases settles with
  | object each latest => exact ⟨_, text, _, found, listed, each⟩

theorem document_latest {input : Bytes} {members listed : Members} (loaded : c.document format input = .ok (.object members))
    (lists : Lists format input listed) : members = Members.ofList listed := by
  obtain ⟨text, found, accepted⟩ := document_reads loaded
  obtain ⟨other, written, same, writes, each⟩ := lists
  obtain rfl := Except.ok.inj (found.symm.trans same)
  have settles := Settles.object each ((Members.is_latest_iff listed _).mpr rfl)
  exact (object.inj (Document.read_settled accepted writes settles)).symm

theorem result_agree {schema : Schema} {members others : Members} (agree : schema.Agree members others) :
    resultOf schema (.object members) = resultOf schema (.object others) := by
  rw [resultOf, resultOf, Schema.record_agree agree]

theorem convert_loaded {input : String} {root : Json} (loaded : c.document format (Utf8.encode input) = .ok root) :
    c.convert format input = resultOf format.schema root := by
  rw [convert_eq, loaded]
  rfl

theorem recognized_content_decides {first second : String} {members others : Members}
    (loaded : c.document format (Utf8.encode first) = .ok (.object members))
    (alsoLoaded : c.document format (Utf8.encode second) = .ok (.object others)) :
    (format.schema.Agree members others → c.convert format first = c.convert format second) ∧
    (∃ listed, Lists format (Utf8.encode first) listed) ∧
    ∀ listed, Lists format (Utf8.encode first) listed →
      c.convert format first = resultOf format.schema (.object (format.schema.essence listed.reverse)) := by
  refine ⟨fun agree => ?_, document_lists loaded, fun listed lists => ?_⟩
  · rw [convert_loaded loaded, convert_loaded alsoLoaded, result_agree agree]
  · have alone := result_agree (Schema.essence_agrees (Schema.format_members_apart format) members)
    rw [convert_loaded loaded, ← alone, document_latest loaded lists, Schema.essence_of_list]

def crowdedText : String :=
  "\x7b\"platform\":1,\"brands\":[\x7b\"y\":1,\"brand\":\"a\",\"version\":null\x7d],\"browsers\":[\x7b\"y\":1\x7d],\"model\":null,\"platform\":\"b\"\x7d"

def plainText : String :=
  " \x7b \"browsers\": [\x7b\"brand\": null\x7d], \"brands\": [\x7b\"brand\": \"a\"\x7d], \"platform\": \"b\" \x7d\n"

def crowdedMembers : Members := [
  ("brands", .array [.object [("brand", .string "a"), ("version", .null), ("y", .number (.whole 1))]]),
  ("browsers", .array [.object [("y", .number (.whole 1))]]), ("model", .null), ("platform", .string "b")]

def plainMembers : Members := [
  ("brands", .array [.object [("brand", .string "a")]]), ("browsers", .array [.object [("brand", .null)]]),
  ("platform", .string "b")]

-- Both are accepted as high-entropy values, and refused as a structured user agent.
theorem crowded_text_is_plain :
    Converter.standard.convert .ghev crowdedText = Converter.standard.convert .ghev plainText ∧
      Converter.standard.convert .ghev plainText =
        .ok ⟨[("header.sec-ch-ua", "\"a\""), ("header.sec-ch-ua-platform", "\"b\"")]⟩ ∧
      Converter.standard.convert .sua crowdedText = Converter.standard.convert .sua plainText ∧
      Converter.standard.convert .sua plainText =
        .error (.unexpectedShape ⟨.member (.item (.member .root "browsers") 0) "brand", .string, none⟩) ∧
      ∃ listed, Lists .ghev (Utf8.encode crowdedText) listed ∧
        Converter.standard.convert .ghev crowdedText = resultOf .ghev (.object (Schema.ghev.essence listed.reverse)) := by
  have crowded : Document.load .standard (Utf8.encode crowdedText) = .ok (.object crowdedMembers) := rfl
  have plain : Document.load .standard (Utf8.encode plainText) = .ok (.object plainMembers) := rfl
  have entries : List.Forall₂ Schema.SameEntry [.object [("brand", .string "a"), ("version", .null), ("y", .number (.whole 1))]]
      [.object [("brand", .string "a")]] := .cons (.object rfl rfl) .nil
  have nameless : List.Forall₂ Schema.SameEntry [.object [("y", .number (.whole 1))]] [.object [("brand", .null)]] :=
    .cons (.object rfl rfl) .nil
  have ghev : Schema.ghev.Agree crowdedMembers plainMembers := by
    simp only [Schema.Agree, Schema.ghev, List.forall_mem_cons]
    exact ⟨.some (.array entries), .none, .none, .some rfl, .none, .none, .none, .none, .none, .none, .none, List.forall_mem_nil _⟩
  have sua : Schema.sua.Agree crowdedMembers plainMembers := by
    simp only [Schema.Agree, Schema.sua, List.forall_mem_cons]
    exact ⟨.some (.array nameless), .some (.equal _), .none, .none, .none, .none, .none, List.forall_mem_nil _⟩
  obtain ⟨same, ⟨listed, lists⟩, essence⟩ := @recognized_content_decides .standard .ghev _ _ _ _ crowded plain
  obtain ⟨alsoSame, -⟩ := @recognized_content_decides .standard .sua _ _ _ _ crowded plain
  exact ⟨same ghev, rfl, alsoSame sua, rfl, listed, lists, essence listed lists⟩

end ClientHints.Converter
