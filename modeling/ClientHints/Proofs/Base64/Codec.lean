import ClientHints.Base64.Codec
import ClientHints.Proofs.Except
import ClientHints.Proofs.Text.Utf8

set_option autoImplicit false

namespace ClientHints.Base64

section Alphabet

theorem symbol_letter {value : Nat} (bound : value < 64) : symbol? (letter value) = some (.sextet value) := by
  have table : ∀ v < 64, symbol? (letter v) = some (.sextet v) := by decide
  exact table value bound

theorem letter_ascii {value : Nat} (bound : value < 64) : letter value < 0x80 := by
  have table : ∀ v < 64, letter v < 0x80 := by decide
  exact table value bound

def Symbol.Stands (b : UInt8) : Symbol → Prop
  | .sextet value => value < 64 ∧ letter value = b
  | .padding => pad = b

instance (b : UInt8) : (symbol : Symbol) → Decidable (symbol.Stands b)
  | .sextet _ => inferInstanceAs (Decidable (_ ∧ _))
  | .padding => inferInstanceAs (Decidable (_ = _))

theorem symbol_stands {b : UInt8} {symbol : Symbol} (known : symbol? b = some symbol) : symbol.Stands b := by
  have table : ∀ b found, found ∈ symbol? b → found.Stands b := Utf8.octet_forall (by decide +kernel)
  exact table b symbol known

theorem symbol_at_letter {value : Nat} (bound : value < 64) (offset : Nat) :
    symbolAt (letter value) offset = .ok (.sextet value) := by
  rw [symbolAt, symbol_letter bound]

theorem symbol_at_pad (offset : Nat) : symbolAt pad offset = .ok .padding := rfl

theorem symbol_at_stands {b : UInt8} {offset : Nat} {symbol : Symbol} (known : symbolAt b offset = .ok symbol) :
    symbol.Stands b := by
  unfold symbolAt at known
  split at known
  · rename_i found equal
    obtain rfl := Except.ok.inj known
    exact symbol_stands equal
  · cases known

end Alphabet

section Encoding

-- Octets are taken in groups of three.
@[elab_as_elim]
theorem groups_induction {motive : Bytes → Prop} (octets : Bytes) (nil : motive []) (one : ∀ a, motive [a])
    (two : ∀ a b, motive [a, b]) (three : ∀ a b c rest, motive rest → motive (a :: b :: c :: rest)) :
    motive octets :=
  match octets with
  | [] => nil
  | [a] => one a
  | [a, b] => two a b
  | a :: b :: c :: rest => three a b c rest (groups_induction rest nil one two three)

theorem encode_from_append (written octets : Bytes) : encodeFrom written octets = written.reverse ++ encode octets := by
  unfold encode
  induction octets using groups_induction generalizing written with
  | nil => simp [encodeFrom]
  | one a => simp [encodeFrom]
  | two a b => simp [encodeFrom]
  | three a b c rest ih => rw [encodeFrom, ih, encodeFrom, ih (_ :: _)]; simp

theorem encode_one (a : UInt8) : encode [a] = [letter (a.toNat / 4), letter (a.toNat % 4 * 16), pad, pad] := rfl

theorem encode_two (a b : UInt8) :
    encode [a, b] = [letter (a.toNat / 4), letter (a.toNat % 4 * 16 + b.toNat / 16), letter (b.toNat % 16 * 4), pad] := rfl

theorem encode_three (a b c : UInt8) (rest : Bytes) :
    encode (a :: b :: c :: rest) = letter (a.toNat / 4) :: letter (a.toNat % 4 * 16 + b.toNat / 16) ::
      letter (b.toNat % 16 * 4 + c.toNat / 64) :: letter (c.toNat % 64) :: encode rest := by
  rw [encode, encodeFrom, encode_from_append]
  rfl

theorem encode_length (octets : Bytes) : (encode octets).length = 4 * ((octets.length + 2) / 3) := by
  induction octets using groups_induction with
  | nil => rfl
  | one a => simp [encode_one]
  | two a b => simp [encode_two]
  | three a b c rest ih =>
    simp only [encode_three, List.length_cons, ih]
    omega

def IsSign (b : UInt8) : Prop :=
  b = pad ∨ ∃ value < 64, b = letter value

theorem encode_signs (octets : Bytes) : ∀ b ∈ encode octets, IsSign b := by
  have sign {value : Nat} (bound : value < 64) : IsSign (letter value) := .inr ⟨value, bound, rfl⟩
  have padding : IsSign pad := .inl rfl
  induction octets using groups_induction with
  | nil => nofun
  | one a =>
    have first := a.toNat_lt
    simp only [encode_one, List.forall_mem_cons]
    exact ⟨sign (by omega), sign (by omega), padding, padding, nofun⟩
  | two a b =>
    have first := a.toNat_lt
    have second := b.toNat_lt
    simp only [encode_two, List.forall_mem_cons]
    exact ⟨sign (by omega), sign (by omega), sign (by omega), padding, nofun⟩
  | three a b c rest ih =>
    have first := a.toNat_lt
    have second := b.toNat_lt
    have third := c.toNat_lt
    simp only [encode_three, List.forall_mem_cons]
    exact ⟨sign (by omega), sign (by omega), sign (by omega), sign (by omega), ih⟩

theorem encode_ascii (octets : Bytes) : ∀ b ∈ encode octets, b < 0x80 := by
  intro b member
  obtain rfl | ⟨value, bound, rfl⟩ := encode_signs octets b member
  · decide
  · exact letter_ascii bound

end Encoding

section Decoding

theorem quantum_three (offset : Nat) (isLast : Bool) (a b c : UInt8) :
    quantum offset isLast (letter (a.toNat / 4)) (letter (a.toNat % 4 * 16 + b.toNat / 16))
      (letter (b.toNat % 16 * 4 + c.toNat / 64)) (letter (c.toNat % 64)) = .ok [a, b, c] := by
  have first := a.toNat_lt
  have second := b.toNat_lt
  have third := c.toNat_lt
  simp only [quantum, symbol_at_letter (show a.toNat / 4 < 64 by omega),
    symbol_at_letter (show a.toNat % 4 * 16 + b.toNat / 16 < 64 by omega),
    symbol_at_letter (show b.toNat % 16 * 4 + c.toNat / 64 < 64 by omega),
    symbol_at_letter (show c.toNat % 64 < 64 by omega), bind, Except.bind, assemble]
  rw [Utf8.octet_eq (b := a) (by omega), Utf8.octet_eq (b := b) (by omega), Utf8.octet_eq (b := c) (by omega)]

theorem quantum_two (offset : Nat) (a b : UInt8) :
    quantum offset true (letter (a.toNat / 4)) (letter (a.toNat % 4 * 16 + b.toNat / 16))
      (letter (b.toNat % 16 * 4)) pad = .ok [a, b] := by
  have first := a.toNat_lt
  have second := b.toNat_lt
  simp only [quantum, symbol_at_letter (show a.toNat / 4 < 64 by omega),
    symbol_at_letter (show a.toNat % 4 * 16 + b.toNat / 16 < 64 by omega),
    symbol_at_letter (show b.toNat % 16 * 4 < 64 by omega), symbol_at_pad, bind, Except.bind, assemble]
  rw [if_neg (by decide), if_neg (by omega), Utf8.octet_eq (b := a) (by omega), Utf8.octet_eq (b := b) (by omega)]

theorem quantum_one (offset : Nat) (a : UInt8) :
    quantum offset true (letter (a.toNat / 4)) (letter (a.toNat % 4 * 16)) pad pad = .ok [a] := by
  have first := a.toNat_lt
  simp only [quantum, symbol_at_letter (show a.toNat / 4 < 64 by omega),
    symbol_at_letter (show a.toNat % 4 * 16 < 64 by omega), symbol_at_pad, bind, Except.bind, assemble]
  rw [if_neg (by decide), if_neg (by omega), Utf8.octet_eq (b := a) (by omega)]

theorem decode_from_encode (decoded : Bytes) (offset : Nat) (octets : Bytes) :
    decodeFrom decoded offset (encode octets) = .ok (decoded.reverse ++ octets) := by
  induction octets using groups_induction generalizing decoded offset with
  | nil => simp [encode, encodeFrom, decodeFrom]
  | one a => simp [encode_one, decodeFrom, quantum_one]
  | two a b => simp [encode_two, decodeFrom, quantum_two]
  | three a b c rest ih => simp [encode_three, decodeFrom, quantum_three, ih]

theorem decode_encode (octets : Bytes) : decode (encode octets) = .ok octets := by
  rw [decode, if_neg (by rw [encode_length]; omega), decode_from_encode]
  rfl

section Sextets

variable {a b c d : Nat}

theorem first_octet (boundA : a < 64) (boundB : b < 64) : (UInt8.ofNat (a * 4 + b / 16)).toNat = a * 4 + b / 16 :=
  UInt8.toNat_ofNat_of_lt' (by change _ < 256; omega)

theorem encode_two_sextets (boundA : a < 64) (boundB : b < 64) (unused : b % 16 = 0) :
    encode [UInt8.ofNat (a * 4 + b / 16)] = [letter a, letter b, pad, pad] := by
  rw [encode_one, first_octet boundA boundB, show (a * 4 + b / 16) / 4 = a by omega,
    show (a * 4 + b / 16) % 4 * 16 = b by omega]

theorem second_octet (boundC : c < 64) : (UInt8.ofNat (b % 16 * 16 + c / 4)).toNat = b % 16 * 16 + c / 4 :=
  UInt8.toNat_ofNat_of_lt' (by change _ < 256; omega)

theorem encode_three_sextets (boundA : a < 64) (boundB : b < 64) (boundC : c < 64) (unused : c % 4 = 0) :
    encode [UInt8.ofNat (a * 4 + b / 16), UInt8.ofNat (b % 16 * 16 + c / 4)] =
      [letter a, letter b, letter c, pad] := by
  rw [encode_two, first_octet boundA boundB, second_octet boundC,
    show (a * 4 + b / 16) / 4 = a by omega,
    show (a * 4 + b / 16) % 4 * 16 + (b % 16 * 16 + c / 4) / 16 = b by omega,
    show (b % 16 * 16 + c / 4) % 16 * 4 = c by omega]

theorem encode_four_sextets (boundA : a < 64) (boundB : b < 64) (boundC : c < 64) (boundD : d < 64) :
    encode [UInt8.ofNat (a * 4 + b / 16), UInt8.ofNat (b % 16 * 16 + c / 4), UInt8.ofNat (c % 4 * 64 + d)] =
      [letter a, letter b, letter c, letter d] := by
  have third : (UInt8.ofNat (c % 4 * 64 + d)).toNat = c % 4 * 64 + d :=
    UInt8.toNat_ofNat_of_lt' (by change _ < 256; omega)
  rw [encode_three, first_octet boundA boundB, second_octet boundC, third,
    show (a * 4 + b / 16) / 4 = a by omega,
    show (a * 4 + b / 16) % 4 * 16 + (b % 16 * 16 + c / 4) / 16 = b by omega,
    show (b % 16 * 16 + c / 4) % 16 * 4 + (c % 4 * 64 + d) / 64 = c by omega,
    show (c % 4 * 64 + d) % 64 = d by omega]
  rfl

end Sextets

theorem assemble_ok {offset : Nat} {isLast : Bool} {w x y z : UInt8} {first second third fourth : Symbol}
    {octets : Bytes} (read : assemble offset isLast first second third fourth = .ok octets)
    (one : first.Stands w) (two : second.Stands x) (three : third.Stands y) (four : fourth.Stands z) :
    encode octets = [w, x, y, z] ∧ (isLast = false → octets.length = 3) := by
  unfold assemble at read
  split at read
  · cases read
  · cases read
  · rename_i a b
    obtain ⟨boundA, rfl⟩ := one
    obtain ⟨boundB, rfl⟩ := two
    obtain rfl : pad = y := three
    obtain rfl : pad = z := four
    split at read
    · cases read
    · rename_i last
      split at read
      · cases read
      · rename_i unused
        obtain rfl := Except.ok.inj read
        exact ⟨encode_two_sextets boundA boundB (not_not.mp unused), fun inner => absurd inner (by simpa using last)⟩
  · cases read
  · rename_i a b c
    obtain ⟨boundA, rfl⟩ := one
    obtain ⟨boundB, rfl⟩ := two
    obtain ⟨boundC, rfl⟩ := three
    obtain rfl : pad = z := four
    split at read
    · cases read
    · rename_i last
      split at read
      · cases read
      · rename_i unused
        obtain rfl := Except.ok.inj read
        exact ⟨encode_three_sextets boundA boundB boundC (not_not.mp unused),
          fun inner => absurd inner (by simpa using last)⟩
  · rename_i a b c d
    obtain ⟨boundA, rfl⟩ := one
    obtain ⟨boundB, rfl⟩ := two
    obtain ⟨boundC, rfl⟩ := three
    obtain ⟨boundD, rfl⟩ := four
    obtain rfl := Except.ok.inj read
    exact ⟨encode_four_sextets boundA boundB boundC boundD, fun _ => rfl⟩

theorem quantum_ok {offset : Nat} {isLast : Bool} {w x y z : UInt8} {octets : Bytes}
    (read : quantum offset isLast w x y z = .ok octets) :
    encode octets = [w, x, y, z] ∧ (isLast = false → octets.length = 3) := by
  simp only [quantum, except_bind_ok_iff] at read
  obtain ⟨first, one, second, two, third, three, fourth, four, assembled⟩ := read
  exact assemble_ok assembled (symbol_at_stands one) (symbol_at_stands two) (symbol_at_stands three) (symbol_at_stands four)

theorem encode_append {octets : Bytes} (rest : Bytes) (full : octets.length = 3) :
    encode (octets ++ rest) = encode octets ++ encode rest := by
  obtain ⟨a, b, c, rfl⟩ := List.length_eq_three.mp full
  rw [encode_three]
  exact encode_three a b c rest

theorem decode_from_ok (text decoded : Bytes) (offset : Nat) (result : Bytes)
    (read : decodeFrom decoded offset text = .ok result) :
    ∃ octets, result = decoded.reverse ++ octets ∧ encode octets = text := by
  induction decoded, offset, text using decodeFrom.induct generalizing result with
  | case1 decoded offset w x y z rest octets found ih =>
    rw [decodeFrom, found] at read
    obtain ⟨others, rfl, encoded⟩ := ih result read
    obtain ⟨quad, full⟩ := quantum_ok found
    refine ⟨octets ++ others, by simp, ?_⟩
    cases rest with
    | nil =>
      have none : others = [] := by
        have size := encode_length others
        rw [encoded] at size
        exact List.eq_nil_of_length_eq_zero (by simp at size; omega)
      rw [none, List.append_nil, quad]
    | cons next rest => rw [encode_append others (full rfl), quad, encoded]; rfl
  | case2 decoded offset w x y z rest fault found =>
    rw [decodeFrom, found] at read
    cases read
  | case3 decoded offset =>
    obtain rfl := Except.ok.inj read
    exact ⟨[], by simp, rfl⟩
  | case4 decoded offset few short filled =>
    simp [decodeFrom] at read

theorem encode_of_decode {text octets : Bytes} (read : decode text = .ok octets) : encode octets = text := by
  unfold decode at read
  split at read
  · cases read
  · obtain ⟨found, rfl, encoded⟩ := decode_from_ok text [] 0 octets read
    exact encoded

end Decoding

theorem encode_take (octets : Bytes) (quanta : Nat) :
    (encode octets).take (4 * quanta) = encode (octets.take (3 * quanta)) := by
  induction octets using groups_induction generalizing quanta with
  | nil => simp [encode, encodeFrom]
  | one a =>
    cases quanta with
    | zero => rfl
    | succ quanta => simp [encode_one, Nat.mul_add]
  | two a b =>
    cases quanta with
    | zero => rfl
    | succ quanta => simp [encode_two, Nat.mul_add]
  | three a b c rest ih =>
    cases quanta with
    | zero => rfl
    | succ quanta => simp [encode_three, Nat.mul_add, ih]

theorem decode_take {text octets : Bytes} (read : decode text = .ok octets) {front : Bytes} (cut : front <+: text) :
    decode front = .error (.invalidLength front.length) ∨ ∃ shorter, shorter <+: octets ∧ decode front = .ok shorter := by
  by_cases whole : front.length % 4 ≠ 0
  · exact .inl (if_pos whole)
  · refine .inr ⟨octets.take (3 * (front.length / 4)), List.take_prefix _ _, ?_⟩
    have front_eq : front = encode (octets.take (3 * (front.length / 4))) := by
      rw [← encode_take, encode_of_decode read, show 4 * (front.length / 4) = front.length by omega]
      exact List.prefix_iff_eq_take.mp cut
    rw [← decode_encode (octets.take _), ← front_eq]

theorem encode_text_octets (octets : Bytes) : Utf8.encode (encodeText octets) = encode octets := by
  have ascii := encode_ascii octets
  have same : ∀ b ∈ encode octets, (Char.ofNat b.toNat).toNat = b.toNat := fun b member => by
    have low : b.toNat < 0x80 := UInt8.lt_iff_toNat_lt.mp (ascii b member)
    exact Utf8.to_nat_of_valid (Or.inl (by omega))
  have back : ∀ b ∈ encode octets, UInt8.ofNat (Char.ofNat b.toNat).toNat = b := fun b member => by
    rw [same b member, UInt8.ofNat_toNat]
  rw [encodeText, Utf8.encode_of_list, Utf8.spell_ascii, List.map_map]
  · exact (List.map_congr_left back).trans (List.map_id _)
  · intro c member
    obtain ⟨b, inside, rfl⟩ := List.mem_map.mp member
    rw [same b inside]
    exact UInt8.lt_iff_toNat_lt.mp (ascii b inside)

end ClientHints.Base64
