import ClientHints.Proofs.Base64.Codec

set_option autoImplicit false

namespace ClientHints.Base64

def alphabet : List Char :=
  "ABCDEFGHIJKLMNOPQRSTUVWXYZabcdefghijklmnopqrstuvwxyz0123456789+/".toList

def IsLetter (b : UInt8) (value : Nat) : Prop :=
  alphabet[value]? = some (Char.ofNat b.toNat)

-- The bits of the last letter before the padding that no octet takes up are zero.
inductive Canonical : Bytes → Prop where
  | empty : Canonical []
  | full {a b c d : UInt8} {w x y z : Nat} {rest : Bytes} (first : IsLetter a w) (second : IsLetter b x)
      (third : IsLetter c y) (fourth : IsLetter d z) (others : Canonical rest) : Canonical (a :: b :: c :: d :: rest)
  | padded {a b c : UInt8} {w x y : Nat} (first : IsLetter a w) (second : IsLetter b x) (third : IsLetter c y)
      (unused : y % 4 = 0) : Canonical [a, b, c, 0x3D]
  | paddedTwice {a b : UInt8} {w x : Nat} (first : IsLetter a w) (second : IsLetter b x) (unused : x % 16 = 0) :
      Canonical [a, b, 0x3D, 0x3D]

theorem is_letter {value : Nat} (bound : value < 64) : IsLetter (letter value) value := by
  have table : ∀ v < 64, alphabet[v]? = some (Char.ofNat (letter v).toNat) := by decide +kernel
  exact table value bound

theorem letter_of_is_letter {b : UInt8} {value : Nat} (known : IsLetter b value) : value < 64 ∧ letter value = b := by
  have bound : value < alphabet.length := (List.getElem?_eq_some_iff.mp known).1
  have size : alphabet.length = 64 := by decide +kernel
  rw [size] at bound
  have same := Option.some.inj ((is_letter bound).symm.trans known)
  have point (a : UInt8) : (Char.ofNat a.toNat).toNat = a.toNat :=
    Utf8.to_nat_of_valid (Or.inl (Nat.lt_trans a.toNat_lt (by decide)))
  have octets : (letter value).toNat = b.toNat := by rw [← point (letter value), same, point b]
  exact ⟨bound, UInt8.toNat_inj.mp octets⟩

theorem encode_canonical (octets : Bytes) : Canonical (encode octets) := by
  induction octets using groups_induction with
  | nil => exact .empty
  | one a =>
    have first := a.toNat_lt
    rw [encode_one]
    exact .paddedTwice (is_letter (by omega)) (is_letter (by omega)) (by omega)
  | two a b =>
    have first := a.toNat_lt
    have second := b.toNat_lt
    rw [encode_two]
    exact .padded (is_letter (by omega)) (is_letter (by omega)) (is_letter (by omega)) (by omega)
  | three a b c rest ih =>
    have first := a.toNat_lt
    have second := b.toNat_lt
    have third := c.toNat_lt
    rw [encode_three]
    exact .full (is_letter (by omega)) (is_letter (by omega)) (is_letter (by omega)) (is_letter (by omega)) ih

theorem canonical_encoded {text : Bytes} (canonical : Canonical text) : ∃ octets, encode octets = text := by
  induction canonical with
  | empty => exact ⟨[], rfl⟩
  | full first second third fourth _ ih =>
    obtain ⟨boundA, rfl⟩ := letter_of_is_letter first
    obtain ⟨boundB, rfl⟩ := letter_of_is_letter second
    obtain ⟨boundC, rfl⟩ := letter_of_is_letter third
    obtain ⟨boundD, rfl⟩ := letter_of_is_letter fourth
    obtain ⟨octets, rfl⟩ := ih
    have quad := encode_four_sextets boundA boundB boundC boundD
    refine ⟨_ ++ octets, (encode_append octets ?_).trans (congrArg (· ++ encode octets) quad)⟩
    rfl
  | padded first second third unused =>
    obtain ⟨boundA, rfl⟩ := letter_of_is_letter first
    obtain ⟨boundB, rfl⟩ := letter_of_is_letter second
    obtain ⟨boundC, rfl⟩ := letter_of_is_letter third
    exact ⟨_, encode_three_sextets boundA boundB boundC unused⟩
  | paddedTwice first second unused =>
    obtain ⟨boundA, rfl⟩ := letter_of_is_letter first
    obtain ⟨boundB, rfl⟩ := letter_of_is_letter second
    exact ⟨_, encode_two_sextets boundA boundB unused⟩

theorem decode_ok_iff (text octets : Bytes) : decode text = .ok octets ↔ encode octets = text :=
  ⟨encode_of_decode, fun same => same ▸ decode_encode octets⟩

theorem decoding_inverts_encoding :
    (∀ octets, decode (encode octets) = .ok octets ∧ (encode octets).length = 4 * ((octets.length + 2) / 3) ∧
      Utf8.encode (encodeText octets) = encode octets) ∧
    (∀ text octets, decode text = .ok octets ↔ encode octets = text) ∧
    (∀ text, (∃ octets, decode text = .ok octets) ↔ Canonical text) ∧
    ∀ octets, ∃! text, decode text = .ok octets := by
  refine ⟨fun octets => ⟨decode_encode octets, encode_length octets, encode_text_octets octets⟩, decode_ok_iff,
    fun text => ?_, fun octets => ⟨encode octets, decode_encode octets, fun text read => (encode_of_decode read).symm⟩⟩
  constructor
  · rintro ⟨octets, read⟩
    rw [← encode_of_decode read]
    exact encode_canonical octets
  · intro canonical
    obtain ⟨octets, rfl⟩ := canonical_encoded canonical
    exact ⟨octets, decode_encode octets⟩

end ClientHints.Base64
