import ClientHints.Converter
import ClientHints.Proofs.Base64.Codec
import ClientHints.Proofs.Document.Loading

set_option autoImplicit false

namespace ClientHints.Converter

def resultOf (schema : Schema) (root : Json) : Except Rejection Evidence :=
  match (schema.record root .empty).2 with
  | none => .ok (schema.record root .empty).1
  | some fault => .error (.unexpectedShape fault)

theorem convert_eq (c : Converter) (format : Format) (input : String) :
    c.convert format input = c.document format (Utf8.encode input) >>= resultOf format.schema := by
  have cleared : Evidence.empty.clear = Evidence.empty := rfl
  simp only [convert, convertInto, cleared]
  cases c.document format (Utf8.encode input) with
  | error rejection => rfl
  | ok root =>
    simp only [bind, Except.bind, resultOf]
    obtain ⟨written, _ | fault⟩ := format.schema.record root .empty <;> rfl

theorem result_ok_iff (schema : Schema) (root : Json) (m : Evidence) :
    resultOf schema root = .ok m ↔ schema.record root .empty = (m, none) := by
  unfold resultOf
  obtain ⟨written, _ | fault⟩ := schema.record root .empty <;> simp

theorem convert_ok_iff (c : Converter) (format : Format) (input : String) (m : Evidence) :
    c.convert format input = .ok m ↔
      ∃ root, c.document format (Utf8.encode input) = .ok root ∧ format.schema.record root .empty = (m, none) := by
  rw [convert_eq]
  cases c.document format (Utf8.encode input) with
  | error rejection => exact ⟨nofun, nofun⟩
  | ok root =>
    change resultOf format.schema root = .ok m ↔ _
    simp [result_ok_iff]

theorem document_of_encoded (c : Converter) (octets : Bytes)
    (fits : (Base64.encode octets).length ≤ c.limits.inputSize.toNat) :
    c.document .ghevBase64 (Base64.encode octets) = Document.load c.limits octets := by
  simp only [document, decodeBase64, Base64.decode_encode, (Document.check_size_ok_iff c.limits _).mpr fits, bind,
    Except.bind]

theorem decode_base64_ok_iff (input octets : Bytes) :
    decodeBase64 input = .ok octets ↔ Base64.decode input = .ok octets := by
  unfold decodeBase64
  cases Base64.decode input with
  | ok decoded => simp
  | error fault => exact ⟨nofun, nofun⟩

theorem document_ghev_base64_ok {c : Converter} {input : Bytes} {root : Json}
    (loaded : c.document .ghevBase64 input = .ok root) :
    input.length ≤ c.limits.inputSize.toNat ∧ ∃ octets, Base64.decode input = .ok octets ∧
      Document.load c.limits octets = .ok root := by
  simp only [document, except_bind_ok_iff] at loaded
  obtain ⟨⟨⟩, fits, octets, decoded, loaded⟩ := loaded
  exact ⟨(Document.check_size_ok_iff c.limits _).mp fits, octets, (decode_base64_ok_iff input octets).mp decoded, loaded⟩

theorem base64_path_is_json_path (c : Converter) :
    (∀ text, (Utf8.encode (Base64.encodeText (Utf8.encode text))).length ≤ c.limits.inputSize.toNat →
      c.convert .ghevBase64 (Base64.encodeText (Utf8.encode text)) = c.convert .ghev text) ∧
    ∀ input m, c.convert .ghevBase64 input = .ok m →
      ∃ text, Base64.decode (Utf8.encode input) = .ok (Utf8.encode text) ∧
        input = Base64.encodeText (Utf8.encode text) ∧
        (Utf8.encode input).length ≤ c.limits.inputSize.toNat ∧ c.convert .ghev text = .ok m := by
  constructor
  · intro text fits
    rw [Base64.encode_text_octets] at fits
    rw [convert_eq, convert_eq, Base64.encode_text_octets, document_of_encoded c _ fits]
    rfl
  · intro input m accepted
    obtain ⟨root, loaded, recorded⟩ := (convert_ok_iff c .ghevBase64 input m).mp accepted
    obtain ⟨fits, octets, decoded, loaded⟩ := document_ghev_base64_ok loaded
    obtain ⟨text, rfl⟩ := Utf8.text_of_valid (Document.load_valid loaded)
    refine ⟨text, decoded, ?_, fits, (convert_ok_iff c .ghev text m).mpr ⟨root, loaded, recorded⟩⟩
    apply Utf8.encode_injective
    rw [Base64.encode_text_octets, Base64.encode_of_decode decoded]

theorem mobile_base64_path :
    Converter.standard.convert .ghevBase64 "eyJtb2JpbGUiOnRydWV9" =
        Converter.standard.convert .ghev "\x7b\"mobile\":true\x7d" ∧
      ∃ text, Converter.standard.convert .ghev text = .ok ⟨[("header.sec-ch-ua-mobile", "?1")]⟩ := by
  have forward := (base64_path_is_json_path .standard).1 "\x7b\"mobile\":true\x7d" (by decide +kernel)
  have encoded : Base64.encodeText (Utf8.encode "\x7b\"mobile\":true\x7d") = "eyJtb2JpbGUiOnRydWV9" := by decide +kernel
  have accepted : Converter.standard.convert .ghevBase64 "eyJtb2JpbGUiOnRydWV9" =
      .ok ⟨[("header.sec-ch-ua-mobile", "?1")]⟩ := rfl
  rw [encoded] at forward
  obtain ⟨text, -, -, -, converted⟩ := (base64_path_is_json_path .standard).2 _ _ accepted
  exact ⟨forward, text, converted⟩

end ClientHints.Converter
