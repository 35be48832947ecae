import ClientHints.Proofs.Base64.Canonical

set_option autoImplicit false

namespace ClientHints.Base64

def IsForeign (b : UInt8) : Prop :=
  b ≠ pad ∧ ∀ value, ¬IsLetter b value

inductive Blames (signs : Bytes) (isLast : Prop) (offset : Nat) : Fault → Prop where
  | invalidByte {b : UInt8} (found : signs[offset % 4]? = some b) (foreign : IsForeign b)
      (first : ∀ c ∈ signs.take (offset % 4), ¬IsForeign c) : Blames signs isLast offset (.invalidByte b offset)
  | invalidPadding (found : signs[offset % 4]? = some pad) (first : pad ∉ signs.take (offset % 4))
      (known : ∀ c ∈ signs, ¬IsForeign c)
      (misplaced : ¬isLast ∨ offset % 4 < 2 ∨ offset % 4 = 2 ∧ signs[3]? ≠ some pad) :
      Blames signs isLast offset (.invalidPadding offset)
  -- The last letter has bits that no octet takes up.
  | nonCanonical {b : UInt8} {value : Nat} (last : isLast) (found : signs[offset % 4]? = some b) (spelled : IsLetter b value)
      (letters : ∀ c ∈ signs.take (offset % 4), ∃ other, IsLetter c other)
      (padded : signs.drop (offset % 4 + 1) = [pad] ∧ value % 4 ≠ 0 ∨
        signs.drop (offset % 4 + 1) = [pad, pad] ∧ value % 16 ≠ 0) :
      Blames signs isLast offset (.nonCanonical offset)

section Signs

theorem letter_not_pad {value : Nat} (bound : value < 64) : letter value ≠ pad := by
  have table : ∀ v < 64, letter v ≠ pad := by decide
  exact table value bound

theorem letter_spelled {b : UInt8} {value : Nat} (stands : Symbol.Stands b (.sextet value)) : IsLetter b value := by
  obtain ⟨bound, rfl⟩ := stands
  exact is_letter bound

theorem spelled_not_pad {b : UInt8} {value : Nat} (spelled : IsLetter b value) : b ≠ pad := by
  obtain ⟨bound, rfl⟩ := letter_of_is_letter spelled
  exact letter_not_pad bound

theorem symbol_at_error {b : UInt8} {offset : Nat} {fault : Fault} (refused : symbolAt b offset = .error fault) :
    fault = .invalidByte b offset ∧ IsForeign b := by
  unfold symbolAt at refused
  split at refused
  · cases refused
  · rename_i unknown
    refine ⟨(Except.error.inj refused).symm, ?_, fun value spelled => ?_⟩
    · rintro rfl
      cases unknown
    · obtain ⟨bound, rfl⟩ := letter_of_is_letter spelled
      rw [symbol_letter bound] at unknown
      cases unknown

theorem symbol_at_known {b : UInt8} {offset : Nat} {symbol : Symbol} (known : symbolAt b offset = .ok symbol) :
    ¬IsForeign b := by
  rintro ⟨noPad, noLetter⟩
  have stands := symbol_at_stands known
  cases symbol with
  | sextet value => exact noLetter value (letter_spelled stands)
  | padding => exact noPad stands.symm

end Signs

section Places

variable {start : Nat} {isLast : Prop} {b : UInt8} (front back : Bytes) (whole : start % 4 = 0) (short : front.length < 4)
include whole short

theorem place_eq : (start + front.length) % 4 = front.length := by
  omega

theorem pointed_out : (front ++ b :: back)[(start + front.length) % 4]? = some b ∧
    (front ++ b :: back).take ((start + front.length) % 4) = front ∧
    (front ++ b :: back).drop ((start + front.length) % 4 + 1) = back := by
  rw [place_eq front whole short]
  simp [List.drop_append]

theorem blames_byte (foreign : IsForeign b) (first : ∀ c ∈ front, ¬IsForeign c) :
    Blames (front ++ b :: back) isLast (start + front.length) (.invalidByte b (start + front.length)) := by
  obtain ⟨found, before, -⟩ := pointed_out (b := b) front back whole short
  exact .invalidByte found foreign (by rwa [before])

theorem blames_padding (first : pad ∉ front) (known : ∀ c ∈ front ++ pad :: back, ¬IsForeign c)
    (misplaced : ¬isLast ∨ front.length < 2 ∨ front.length = 2 ∧ back[0]? ≠ some pad) :
    Blames (front ++ pad :: back) isLast (start + front.length) (.invalidPadding (start + front.length)) := by
  obtain ⟨found, before, -⟩ := pointed_out (b := pad) front back whole short
  refine .invalidPadding found (by rwa [before]) known ?_
  rw [place_eq front whole short]
  refine misplaced.imp_right (Or.imp_right fun ⟨third, other⟩ => ⟨third, ?_⟩)
  rw [List.getElem?_append_right (by omega), third]
  exact other

theorem blames_bits {value : Nat} (last : isLast) (spelled : IsLetter b value) (letters : ∀ c ∈ front, ∃ other, IsLetter c other)
    (padded : back = [pad] ∧ value % 4 ≠ 0 ∨ back = [pad, pad] ∧ value % 16 ≠ 0) :
    Blames (front ++ b :: back) isLast (start + front.length) (.nonCanonical (start + front.length)) := by
  obtain ⟨found, before, after⟩ := pointed_out (b := b) front back whole short
  exact .nonCanonical last found spelled (by rwa [before]) (by rwa [after])

end Places

section Quanta

variable {start : Nat} {isLast : Bool} {w x y z : UInt8} {fault : Fault} (whole : start % 4 = 0)
include whole

-- The signs are known by now. The first padding sign decides, and then the bits of the letter before it.
theorem assemble_blames {first second third fourth : Symbol}
    (refused : assemble start isLast first second third fourth = .error fault)
    (one : first.Stands w) (two : second.Stands x) (three : third.Stands y) (four : fourth.Stands z)
    (known : ∀ c ∈ [w, x, y, z], ¬IsForeign c) :
    ∃ place < 4, Blames [w, x, y, z] (isLast = true) (start + place) fault := by
  unfold assemble at refused
  split at refused
  · obtain rfl := Except.error.inj refused
    obtain rfl : pad = w := one
    exact ⟨0, by decide, blames_padding [] _ whole (by decide) nofun known (.inr (.inl (by decide)))⟩
  · obtain rfl := Except.error.inj refused
    obtain rfl : pad = x := two
    have letter := spelled_not_pad (letter_spelled one)
    exact ⟨1, by decide, blames_padding [w] _ whole (by simp) (by simpa using letter.symm) known
      (.inr (.inl (by simp)))⟩
  · have letters : pad ∉ [w, x] := by
      simpa using ⟨(spelled_not_pad (letter_spelled one)).symm, (spelled_not_pad (letter_spelled two)).symm⟩
    obtain rfl : pad = y := three
    obtain rfl : pad = z := four
    split at refused
    · rename_i inner
      obtain rfl := Except.error.inj refused
      exact ⟨2, by decide, blames_padding [w, x] _ whole (by simp) letters known (.inl (by simpa using inner))⟩
    · rename_i last
      split at refused
      · rename_i bits
        obtain rfl := Except.error.inj refused
        exact ⟨1, by decide, blames_bits [w] _ whole (by simp) (by simpa using last) (letter_spelled two)
          (by simpa using ⟨_, letter_spelled one⟩) (.inr ⟨rfl, bits⟩)⟩
      · cases refused
  · obtain rfl := Except.error.inj refused
    obtain rfl : pad = y := three
    have letters : pad ∉ [w, x] := by
      simpa using ⟨(spelled_not_pad (letter_spelled one)).symm, (spelled_not_pad (letter_spelled two)).symm⟩
    have letter := spelled_not_pad (letter_spelled four)
    exact ⟨2, by decide, blames_padding [w, x] _ whole (by simp) letters known
      (.inr (.inr ⟨rfl, by simpa using letter⟩))⟩
  · have letters : pad ∉ [w, x, y] := by
      simpa using ⟨(spelled_not_pad (letter_spelled one)).symm, (spelled_not_pad (letter_spelled two)).symm,
        (spelled_not_pad (letter_spelled three)).symm⟩
    obtain rfl : pad = z := four
    split at refused
    · rename_i inner
      obtain rfl := Except.error.inj refused
      exact ⟨3, by decide, blames_padding [w, x, y] _ whole (by simp) letters known (.inl (by simpa using inner))⟩
    · rename_i last
      split at refused
      · rename_i bits
        obtain rfl := Except.error.inj refused
        exact ⟨2, by decide, blames_bits [w, x] _ whole (by simp) (by simpa using last) (letter_spelled three)
          (by simpa using ⟨⟨_, letter_spelled one⟩, ⟨_, letter_spelled two⟩⟩) (.inl ⟨rfl, bits⟩)⟩
      · cases refused
  · cases refused

theorem quantum_blames (refused : quantum start isLast w x y z = .error fault) :
    ∃ place < 4, Blames [w, x, y, z] (isLast = true) (start + place) fault := by
  obtain failed | ⟨first, one, refused⟩ := (except_bind_error_iff _ _ _).mp refused
  · obtain ⟨rfl, foreign⟩ := symbol_at_error failed
    exact ⟨0, by decide, blames_byte [] _ whole (by decide) foreign nofun⟩
  have knownW := symbol_at_known one
  obtain failed | ⟨second, two, refused⟩ := (except_bind_error_iff _ _ _).mp refused
  · obtain ⟨rfl, foreign⟩ := symbol_at_error failed
    exact ⟨1, by decide, blames_byte [w] _ whole (by simp) foreign (by simpa using knownW)⟩
  have knownX := symbol_at_known two
  obtain failed | ⟨third, three, refused⟩ := (except_bind_error_iff _ _ _).mp refused
  · obtain ⟨rfl, foreign⟩ := symbol_at_error failed
    exact ⟨2, by decide, blames_byte [w, x] _ whole (by simp) foreign (by simpa using ⟨knownW, knownX⟩)⟩
  have knownY := symbol_at_known three
  obtain failed | ⟨fourth, four, refused⟩ := (except_bind_error_iff _ _ _).mp refused
  · obtain ⟨rfl, foreign⟩ := symbol_at_error failed
    exact ⟨3, by decide, blames_byte [w, x, y] _ whole (by simp) foreign (by simpa using ⟨knownW, knownX, knownY⟩)⟩
  have known : ∀ c ∈ [w, x, y, z], ¬IsForeign c := by simpa using ⟨knownW, knownX, knownY, symbol_at_known four⟩
  exact assemble_blames whole refused (symbol_at_stands one) (symbol_at_stands two) (symbol_at_stands three)
    (symbol_at_stands four) known

end Quanta

section Texts

theorem encode_unpadded (octets : Bytes) (groups : octets.length % 3 = 0) : pad ∉ encode octets := by
  induction octets using groups_induction with
  | nil => nofun
  | one a => simp at groups
  | two a b => simp at groups
  | three a b c rest ih =>
    have first := a.toNat_lt
    have second := b.toNat_lt
    have third := c.toNat_lt
    have others := ih (by simp at groups; omega)
    have sign {value : Nat} (bound : value < 64) : pad ≠ letter value := (letter_not_pad bound).symm
    rw [encode_three]
    simp only [List.mem_cons, not_or]
    exact ⟨sign (by omega), sign (by omega), sign (by omega), sign (by omega), others⟩

-- The induction is on the quanta: each that is decoded has three octets, because another one follows.
theorem decode_from_error {text decoded : Bytes} {offset : Nat} {fault : Fault}
    (refused : decodeFrom decoded offset text = .error fault) (whole : text.length % 4 = 0) :
    ∃ octets w x y z rest, text = encode octets ++ w :: x :: y :: z :: rest ∧ octets.length % 3 = 0 ∧
      quantum (offset + (encode octets).length) rest.isEmpty w x y z = .error fault := by
  induction decoded, offset, text using decodeFrom.induct with
  | case1 decoded offset w x y z rest octets found ih =>
    rw [decodeFrom, found] at refused
    obtain ⟨others, w', x', y', z', rest', rfl, groups, failed⟩ := ih refused (by simp at whole; omega)
    obtain ⟨quad, full⟩ := quantum_ok found
    have three : octets.length = 3 := full (by simp)
    have front : encode (octets ++ others) = w :: x :: y :: z :: encode others := by
      rw [encode_append others three, quad]
      rfl
    refine ⟨octets ++ others, w', x', y', z', rest', ?_, ?_, ?_⟩
    · rw [front]
      rfl
    · rw [List.length_append]
      omega
    · rw [front, List.length_cons, List.length_cons, List.length_cons, List.length_cons]
      rw [← failed]
      congr 1
      omega
  | case2 decoded offset w x y z rest other found =>
    rw [decodeFrom, found] at refused
    obtain rfl := Except.error.inj refused
    exact ⟨[], w, x, y, z, rest, rfl, rfl, found⟩
  | case3 decoded offset => cases refused
  | case4 decoded offset few short filled =>
    rcases few with _ | ⟨a, _ | ⟨b, _ | ⟨c, _ | ⟨d, rest⟩⟩⟩⟩
    · exact absurd rfl filled
    · cases whole
    · cases whole
    · cases whole
    · exact absurd rfl (short a b c d rest)

end Texts

def Fault.offset? : Fault → Option Nat
  | .invalidLength _ => none
  | .invalidByte _ offset | .invalidPadding offset | .nonCanonical offset => some offset

theorem blames_offset {signs : Bytes} {isLast : Prop} {offset : Nat} {fault : Fault}
    (blames : Blames signs isLast offset fault) : fault.offset? = some offset := by
  cases blames <;> rfl

theorem fault_blames_first_quantum (text : Bytes) (fault : Fault) (refused : decode text = .error fault) :
    (text.length % 4 ≠ 0 → fault = .invalidLength text.length) ∧
    (text.length % 4 = 0 → ∃ offset < text.length, fault.offset? = some offset ∧
      (∃ octets, decode (text.take (4 * (offset / 4))) = .ok octets) ∧ pad ∉ text.take (4 * (offset / 4)) ∧
      Blames ((text.drop (4 * (offset / 4))).take 4) (4 * (offset / 4) + 4 = text.length) offset fault) := by
  constructor
  · intro ragged
    rw [decode, if_pos ragged] at refused
    exact (Except.error.inj refused).symm
  · intro whole
    rw [decode, if_neg (by omega)] at refused
    obtain ⟨octets, w, x, y, z, rest, rfl, groups, failed⟩ := decode_from_error refused whole
    have aligned : (encode octets).length % 4 = 0 := by
      rw [encode_length]
      omega
    rw [Nat.zero_add] at failed
    obtain ⟨place, inside, blames⟩ := quantum_blames aligned failed
    have start : 4 * (((encode octets).length + place) / 4) = (encode octets).length := by omega
    have last : rest.isEmpty = true ↔ (encode octets).length + 4 = (encode octets ++ w :: x :: y :: z :: rest).length := by
      cases rest <;> simp
    refine ⟨(encode octets).length + place, ?_, blames_offset blames, ?_, ?_, ?_⟩
    · simp
      omega
    · rw [start, List.take_left]
      exact ⟨octets, decode_encode octets⟩
    · rw [start, List.take_left]
      exact encode_unpadded octets groups
    · rw [start, List.drop_left, ← propext last]
      exact blames

-- A ragged text; a padding sign too early with a foreign octet after it; bits left over in the second quantum.
theorem wrong_signs_are_blamed :
    decode (Utf8.encode "SGVsbG8") = .error (.invalidLength 7) ∧
      (decode (Utf8.encode "S=-aSGVs") = .error (.invalidByte 0x2D 2) ∧
        Blames (Utf8.encode "S=-a") False 2 (.invalidByte 0x2D 2)) ∧
      decode (Utf8.encode "SGVsbG9=") = .error (.nonCanonical 6) ∧
        Blames (Utf8.encode "bG9=") True 6 (.nonCanonical 6) := by
  obtain ⟨fault, refused⟩ : ∃ fault, decode (Utf8.encode "SGVsbG8") = .error fault := ⟨_, rfl⟩
  have alien : decode (Utf8.encode "S=-aSGVs") = .error (.invalidByte 0x2D 2) := by decide +kernel
  have loose : decode (Utf8.encode "SGVsbG9=") = .error (.nonCanonical 6) := by decide +kernel
  have length : (Utf8.encode "SGVsbG8").length = 7 := by decide +kernel
  refine ⟨?_, ⟨alien, ?_⟩, loose, ?_⟩
  · have ragged := (fault_blames_first_quantum _ _ refused).1
    rw [length] at ragged
    rw [refused, ragged (by decide)]
  · obtain ⟨offset, -, located, -, -, blames⟩ := (fault_blames_first_quantum _ _ alien).2 (by decide +kernel)
    obtain rfl := Option.some.inj located
    have signs : ((Utf8.encode "S=-aSGVs").drop (4 * (2 / 4))).take 4 = Utf8.encode "S=-a" := by decide +kernel
    have inner : (4 * (2 / 4) + 4 = (Utf8.encode "S=-aSGVs").length) = False := eq_false (by decide +kernel)
    rwa [signs, inner] at blames
  · obtain ⟨offset, -, located, -, -, blames⟩ := (fault_blames_first_quantum _ _ loose).2 (by decide +kernel)
    obtain rfl := Option.some.inj located
    have signs : ((Utf8.encode "SGVsbG9=").drop (4 * (6 / 4))).take 4 = Utf8.encode "bG9=" := by decide +kernel
    have last : (4 * (6 / 4) + 4 = (Utf8.encode "SGVsbG9=").length) = True := eq_true (by decide +kernel)
    rwa [signs, last] at blames

end ClientHints.Base64
