import ClientHints.Proofs.Converter.Result

set_option autoImplicit false

namespace ClientHints

namespace Document

theorem read_depth {text : Bytes} {root : Json} (found : Json.read text = .ok root) : root.depth ≤ 127 := by
  obtain ⟨written, -, settles, bounded⟩ := Json.read_writes found
  exact (Json.settles_shallow settles).trans bounded

theorem unbounded_size : Limits.unbounded.inputSize.toNat = 2 ^ 64 - 1 := rfl

theorem unbounded_depth : Limits.unbounded.nestingDepth.toNat = 2 ^ 64 - 1 := rfl

theorem load_unbounded_iff {text : Bytes} (fits : text.length < 2 ^ 64) (root : Json) :
    load .unbounded text = .ok root ↔ parse text = .ok root := by
  rw [load_ok_iff_read, parse_ok_iff, unbounded_size, unbounded_depth]
  constructor
  · exact fun ⟨_, found, _⟩ => found
  · intro found
    have shallow := read_depth found
    exact ⟨by omega, found, by omega⟩

end Document

namespace Converter

open Document

def payload (format : Format) (input : Bytes) : Except Rejection Bytes :=
  match format with
  | .ghev | .sua => .ok input
  | .ghevBase64 => decodeBase64 input

def Holds (format : Format) (input : Bytes) (root : Json) : Prop :=
  ∃ text, payload format input = .ok text ∧ load .unbounded text = .ok root

def limited (c : Converter) (limits : Limits) : Converter :=
  ⟨c.capacity, limits⟩

-- Every three octets are written as four signs.
theorem payload_length {format : Format} {input text : Bytes} (found : payload format input = .ok text) :
    text.length ≤ input.length := by
  cases format with
  | ghev | sua =>
    cases found
    exact le_rfl
  | ghevBase64 =>
    have decoded := (decode_base64_ok_iff input text).mp found
    rw [← Base64.encode_of_decode decoded, Base64.encode_length]
    omega

section Fitting

variable {c : Converter} {format : Format} {input : Bytes} (fits : input.length ≤ c.limits.inputSize.toNat)
include fits

theorem payload_fits {text : Bytes} (found : payload format input = .ok text) :
    checkSize c.limits text.length = .ok () :=
  (check_size_ok_iff c.limits _).mpr ((payload_length found).trans fits)

theorem document_of_fits :
    c.document format input = payload format input >>= fun text => parse text >>= checkDepth c.limits := by
  have load_fits {text : Bytes} (found : payload format input = .ok text) :
      load c.limits text = parse text >>= checkDepth c.limits := by
    rw [load, payload_fits fits found]
    rfl
  cases format with
  | ghev | sua => exact load_fits rfl
  | ghevBase64 =>
    have counted := (check_size_ok_iff c.limits _).mpr fits
    rw [document, counted]
    cases found : decodeBase64 input with
    | error rejection =>
      rw [payload, found]
      rfl
    | ok text =>
      rw [payload, found]
      exact load_fits found

end Fitting

theorem convert_oversized {c : Converter} {format : Format} {input : String}
    (larger : c.limits.inputSize.toNat < (Utf8.encode input).length) :
    c.convert format input =
      .error (.resourceLimit .inputSize (Utf8.encode input).length c.limits.inputSize) := by
  have refused : checkSize c.limits (Utf8.encode input).length =
      .error (.resourceLimit .inputSize (Utf8.encode input).length c.limits.inputSize) := if_pos larger
  rw [convert_eq]
  cases format with
  | ghev | sua | ghevBase64 =>
    simp only [document, load, refused]
    rfl

section Fitting

variable {c : Converter} {format : Format} {input : String}
  (fits : (Utf8.encode input).length ≤ c.limits.inputSize.toNat)
include fits

theorem unlimited_fits : (Utf8.encode input).length < 2 ^ 64 :=
  Nat.lt_of_le_of_lt fits c.limits.inputSize.toNat_lt

theorem convert_too_deep {root : Json} (holds : Holds format (Utf8.encode input) root)
    (deeper : c.limits.nestingDepth.toNat < root.depth) :
    c.convert format input = .error (.resourceLimit .nestingDepth root.depth c.limits.nestingDepth) := by
  obtain ⟨text, found, loaded⟩ := holds
  have short := (payload_length found).trans_lt (unlimited_fits fits)
  have parsed := (load_unbounded_iff short root).mp loaded
  have refused : checkDepth c.limits root = .error (.resourceLimit .nestingDepth root.depth c.limits.nestingDepth) :=
    if_pos deeper
  rw [convert_eq, document_of_fits fits, found]
  change (parse text >>= checkDepth c.limits) >>= _ = _
  rw [parsed]
  change checkDepth c.limits root >>= _ = _
  rw [refused]
  rfl

theorem convert_shallow
    (shallow : ∀ root, Holds format (Utf8.encode input) root → root.depth ≤ c.limits.nestingDepth.toNat) :
    c.convert format input = (c.limited .unbounded).convert format input := by
  have small := unlimited_fits fits
  have unlimited : (Utf8.encode input).length ≤ (c.limited .unbounded).limits.inputSize.toNat := by
    change _ ≤ Limits.unbounded.inputSize.toNat
    rw [unbounded_size]
    omega
  rw [convert_eq, convert_eq, document_of_fits fits, document_of_fits unlimited]
  congr 1
  cases found : payload format (Utf8.encode input) with
  | error rejection => rfl
  | ok text =>
    change parse text >>= _ = parse text >>= _
    cases parsed : parse text with
    | error rejection => rfl
    | ok root =>
      have loaded := (load_unbounded_iff ((payload_length found).trans_lt small) root).mpr parsed
      have kept := (check_depth_ok_iff c.limits root root).mpr ⟨rfl, shallow root ⟨text, found, loaded⟩⟩
      have free := (check_depth_ok_iff .unbounded root root).mpr ⟨rfl, ((load_ok_iff_read _ _ _).mp loaded).2.2⟩
      exact kept.trans free.symm

end Fitting

theorem convert_unrefused {c : Converter} {format : Format} {input : String}
    (unrefused : ∀ resource actual limit, c.convert format input ≠ .error (.resourceLimit resource actual limit)) :
    (Utf8.encode input).length ≤ c.limits.inputSize.toNat ∧
      ∀ root, Holds format (Utf8.encode input) root → root.depth ≤ c.limits.nestingDepth.toNat := by
  have fits : (Utf8.encode input).length ≤ c.limits.inputSize.toNat := by
    by_contra larger
    exact unrefused _ _ _ (convert_oversized (Nat.not_le.mp larger))
  refine ⟨fits, fun root holds => ?_⟩
  by_contra deeper
  exact unrefused _ _ _ (convert_too_deep fits holds (Nat.not_le.mp deeper))

theorem convert_enlarged {c : Converter} {format : Format} {input : String} {limits : Limits}
    (size : c.limits.inputSize ≤ limits.inputSize) (depth : c.limits.nestingDepth ≤ limits.nestingDepth)
    (unrefused : ∀ resource actual limit, c.convert format input ≠ .error (.resourceLimit resource actual limit)) :
    (c.limited limits).convert format input = c.convert format input := by
  obtain ⟨fits, shallow⟩ := convert_unrefused unrefused
  have size := UInt64.le_iff_toNat_le.mp size
  have depth := UInt64.le_iff_toNat_le.mp depth
  have more : (Utf8.encode input).length ≤ (c.limited limits).limits.inputSize.toNat := fits.trans size
  rw [convert_shallow fits shallow, convert_shallow more fun root holds => (shallow root holds).trans depth]
  rfl

theorem limits_only_refuse (c : Converter) (format : Format) (input : String) :
    (c.limits.inputSize.toNat < (Utf8.encode input).length →
      c.convert format input =
        .error (.resourceLimit .inputSize (Utf8.encode input).length c.limits.inputSize)) ∧
    ((Utf8.encode input).length ≤ c.limits.inputSize.toNat →
      (∀ root, Holds format (Utf8.encode input) root → c.limits.nestingDepth.toNat < root.depth →
        c.convert format input = .error (.resourceLimit .nestingDepth root.depth c.limits.nestingDepth)) ∧
      ((∀ root, Holds format (Utf8.encode input) root → root.depth ≤ c.limits.nestingDepth.toNat) →
        c.convert format input = (c.limited .unbounded).convert format input) ∧
      ∀ text, payload format (Utf8.encode input) = .ok text → checkSize c.limits text.length = .ok ()) ∧
    ∀ limits : Limits, c.limits.inputSize ≤ limits.inputSize → c.limits.nestingDepth ≤ limits.nestingDepth →
      (∀ m, c.convert format input = .ok m → (c.limited limits).convert format input = .ok m) ∧
      ∀ rejection, c.convert format input = .error rejection →
        (∀ resource actual limit, rejection ≠ .resourceLimit resource actual limit) →
        (c.limited limits).convert format input = .error rejection := by
  refine ⟨convert_oversized, fun fits => ⟨fun root => convert_too_deep fits, convert_shallow fits,
    fun text => payload_fits fits⟩, fun limits size depth => ⟨fun m accepted => ?_, fun rejection refused other => ?_⟩⟩
  · rw [convert_enlarged size depth (by simp [accepted]), accepted]
  · rw [convert_enlarged size depth (by simpa [refused] using other), refused]

theorem mobile_limits :
    (Converter.mk 0 ⟨14, 16⟩).convert .ghev "\x7b\"mobile\":true\x7d" = .error (.resourceLimit .inputSize 15 14) ∧
      (Converter.mk 0 ⟨20, 0⟩).convert .ghevBase64 "eyJtb2JpbGUiOnRydWV9" =
        .error (.resourceLimit .nestingDepth 1 0) ∧
      (Converter.mk 0 ⟨15, 1⟩).convert .ghev "\x7b\"mobile\":true\x7d" =
        (Converter.mk 0 .unbounded).convert .ghev "\x7b\"mobile\":true\x7d" ∧
      (Converter.mk 0 .standard).convert .ghev "\x7b\"mobile\":true\x7d" = .ok ⟨[("header.sec-ch-ua-mobile", "?1")]⟩ ∧
      (Converter.mk 0 .standard).convert .ghev "1" = .error (.unexpectedShape ⟨.root, .object, some .number⟩) := by
  have size : (Utf8.encode "\x7b\"mobile\":true\x7d").length = 15 := by decide +kernel
  have loaded : load .unbounded (Utf8.encode "\x7b\"mobile\":true\x7d") = .ok (.object [("mobile", .bool true)]) := rfl
  have holds : Holds .ghevBase64 (Utf8.encode "eyJtb2JpbGUiOnRydWV9") (.object [("mobile", .bool true)]) :=
    ⟨Utf8.encode "\x7b\"mobile\":true\x7d", rfl, loaded⟩
  have shallow (root : Json) (holds : Holds .ghev (Utf8.encode "\x7b\"mobile\":true\x7d") root) : root.depth ≤ 1 := by
    obtain ⟨text, found, other⟩ := holds
    cases found
    rw [loaded] at other
    cases other
    decide
  have oversized := (limits_only_refuse ⟨0, ⟨14, 16⟩⟩ .ghev "\x7b\"mobile\":true\x7d").1 (by rw [size]; decide)
  rw [size] at oversized
  have deep := ((limits_only_refuse ⟨0, ⟨20, 0⟩⟩ .ghevBase64 "eyJtb2JpbGUiOnRydWV9").2.1 (by decide +kernel)).1
    _ holds (by decide)
  have free := ((limits_only_refuse ⟨0, ⟨15, 1⟩⟩ .ghev "\x7b\"mobile\":true\x7d").2.1 (by decide +kernel)).2.1 shallow
  have enlarged := (limits_only_refuse ⟨0, ⟨15, 1⟩⟩ .ghev "\x7b\"mobile\":true\x7d").2.2 .standard (by decide) (by decide)
  have kept := (limits_only_refuse ⟨0, ⟨15, 1⟩⟩ .ghev "1").2.2 .standard (by decide) (by decide)
  exact ⟨oversized, deep, free, enlarged.1 _ rfl, kept.2 _ rfl nofun⟩

end Converter

end ClientHints
