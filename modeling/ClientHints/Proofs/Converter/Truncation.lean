import ClientHints.Proofs.Converter.Limits
import ClientHints.Proofs.Json.Truncation
import ClientHints.Proofs.Schema.Profile

/-!
Inputs cut short. The front of an input that gives evidence gives the same evidence, or it is malformed: a document
is an object, and an object ends with its last brace.
-/

set_option autoImplicit false

namespace ClientHints

namespace Document

theorem load_truncated {limits : Limits} {text front : Bytes} {members : Json.Members}
    (loaded : load limits text = .ok (.object members)) (cut : front <+: text) :
    load limits front = .ok (.object members) ∨
      ∃ reason place, load limits front = .error (.malformedJson reason place) := by
  obtain ⟨fits, whole, shallow⟩ := (load_ok_iff_read limits text _).mp loaded
  have shorter : front.length ≤ limits.inputSize.toNat := cut.length_le.trans fits
  cases short : Json.read front with
  | ok root =>
    obtain rfl | ⟨number, ⟨⟩⟩ := Json.read_front cut short whole
    exact .inl ((load_ok_iff_read limits front _).mpr ⟨shorter, short, shallow⟩)
  | error fault =>
    refine .inr ⟨fault.reason, fault.place front, ?_⟩
    rw [load, (check_size_ok_iff limits _).mpr shorter]
    change parse front >>= _ = _
    rw [parse, short]
    rfl

end Document

namespace Converter

open Document

inductive Malformed : Format → Rejection → Prop where
  | json (format : Format) (reason : Json.Reason) (place : Json.Place) : Malformed format (.malformedJson reason place)
  | base64 (fault : Base64.Fault) : Malformed .ghevBase64 (.malformedBase64 fault)

theorem document_truncated {c : Converter} {format : Format} {input front : Bytes} {members : Json.Members}
    (loaded : c.document format input = .ok (.object members)) (cut : front <+: input) :
    c.document format front = .ok (.object members) ∨
      ∃ rejection, c.document format front = .error rejection ∧ Malformed format rejection := by
  cases format with
  | ghev | sua =>
    obtain same | ⟨reason, place, refused⟩ := load_truncated loaded cut
    · exact .inl same
    · exact .inr ⟨_, refused, .json _ reason place⟩
  | ghevBase64 =>
    obtain ⟨fits, octets, decoded, loaded⟩ := document_ghev_base64_ok loaded
    have counted := (check_size_ok_iff c.limits _).mpr (cut.length_le.trans fits)
    rw [document, counted]
    change (decodeBase64 front >>= load c.limits) = _ ∨ ∃ rejection, (decodeBase64 front >>= load c.limits) = _ ∧ _
    obtain refused | ⟨shorter, shorterCut, found⟩ := Base64.decode_take decoded cut
    · rw [decodeBase64, refused]
      exact .inr ⟨_, rfl, .base64 _⟩
    · rw [decodeBase64, found]
      change load c.limits shorter = _ ∨ ∃ rejection, load c.limits shorter = _ ∧ _
      obtain same | ⟨reason, place, refused⟩ := load_truncated loaded shorterCut
      · exact .inl same
      · exact .inr ⟨_, refused, .json _ reason place⟩

theorem truncation_changes_no_evidence {c : Converter} {format : Format} {input front : String} {m : Evidence}
    (accepted : c.convert format input = .ok m) (cut : Utf8.encode front <+: Utf8.encode input) :
    c.convert format front = .ok m ∨
      ∃ rejection, c.convert format front = .error rejection ∧ Malformed format rejection := by
  obtain ⟨root, loaded, recorded⟩ := (convert_ok_iff c format input m).mp accepted
  obtain ⟨members, -, rfl, -, -⟩ := (Schema.record_ok_iff format root m).mp recorded
  obtain same | ⟨rejection, refused, malformed⟩ := document_truncated loaded cut
  · exact .inl ((convert_ok_iff c format front m).mpr ⟨_, same, recorded⟩)
  · refine .inr ⟨rejection, ?_, malformed⟩
    rw [convert_eq, refused]
    rfl

theorem mobile_truncations :
    Converter.standard.convert .ghevBase64 "eyJtb2JpbGUiOnRydWV9ICA=" = .ok ⟨[("header.sec-ch-ua-mobile", "?1")]⟩ ∧
      ∀ front ∈ ["eyJtb2JpbGUiOnRydWV9", "eyJtb2JpbGUiOnRydWV9IC", "eyJtb2JpbGUi"],
        Converter.standard.convert .ghevBase64 front = .ok ⟨[("header.sec-ch-ua-mobile", "?1")]⟩ ∨
          ∃ rejection, Converter.standard.convert .ghevBase64 front = .error rejection ∧
            Malformed .ghevBase64 rejection := by
  have accepted : Converter.standard.convert .ghevBase64 "eyJtb2JpbGUiOnRydWV9ICA=" =
      .ok ⟨[("header.sec-ch-ua-mobile", "?1")]⟩ := rfl
  have cuts : ∀ front ∈ ["eyJtb2JpbGUiOnRydWV9", "eyJtb2JpbGUiOnRydWV9IC", "eyJtb2JpbGUi"],
      Utf8.encode front <+: Utf8.encode "eyJtb2JpbGUiOnRydWV9ICA=" := by decide +kernel
  exact ⟨accepted, fun front listed => truncation_changes_no_evidence accepted (cuts front listed)⟩

end Converter

end ClientHints
