import ClientHints.Text
import ClientHints.Proofs.Except
import Mathlib.Data.List.Basic

set_option autoImplicit false

namespace ClientHints.Utf8

def spell (chars : List Char) : Bytes :=
  chars.flatMap String.utf8EncodeChar

theorem spell_append (left right : List Char) : spell (left ++ right) = spell left ++ spell right :=
  List.flatMap_append

theorem encode_of_list (chars : List Char) : encode (String.ofList chars) = spell chars := by
  simp [encode, spell, List.utf8Encode]

theorem encode_eq_spell (text : String) : encode text = spell text.toList := by
  rw [← encode_of_list, String.ofList_toList]

theorem encode_append (left right : String) : encode (left ++ right) = encode left ++ encode right := by
  rw [encode_eq_spell, String.toList_append, spell_append, ← encode_eq_spell, ← encode_eq_spell]

theorem encode_char_ascii (c : Char) (ascii : c.toNat < 0x80) : String.utf8EncodeChar c = [UInt8.ofNat c.toNat] := by
  have low : c.val.toNat ≤ 0x7F := Nat.le_of_lt_succ ascii
  simp only [String.utf8EncodeChar, if_pos low]
  rfl

theorem spell_ascii (chars : List Char) (ascii : ∀ c ∈ chars, c.toNat < 0x80) :
    spell chars = chars.map fun c => UInt8.ofNat c.toNat := by
  induction chars with
  | nil => rfl
  | cons c rest ih =>
    rw [List.map_cons, ← ih fun d member => ascii d (List.mem_cons_of_mem c member)]
    change String.utf8EncodeChar c ++ spell rest = _
    rw [encode_char_ascii c (ascii c List.mem_cons_self)]
    rfl

theorem encode_char_large {c : Char} (large : 0x80 ≤ c.toNat) : ∀ b ∈ String.utf8EncodeChar c, 0x80 ≤ b.toNat := by
  have high : ¬c.val.toNat ≤ 0x7F := Nat.not_le.mpr large
  have valid : c.val.toNat.isValidChar := c.valid
  have octet {n : Nat} (least : 0x80 ≤ n) (small : n < 256) : 0x80 ≤ (UInt8.ofNat n).toNat := by
    rw [UInt8.toNat_ofNat_of_lt' small]
    exact least
  unfold Nat.isValidChar at valid
  unfold String.utf8EncodeChar
  extract_lets v
  rw [if_neg high]
  repeat' split
  all_goals
    simp only [List.forall_mem_cons, List.not_mem_nil, false_implies, implies_true, and_true]
    repeat' apply And.intro
  all_goals exact octet (by omega) (by omega)

theorem ascii_spelled {chars : List Char} {b : UInt8} (ascii : b < 0x80) (spelled : b ∈ spell chars) :
    Char.ofNat b.toNat ∈ chars := by
  obtain ⟨c, member, octet⟩ := List.mem_flatMap.mp spelled
  by_cases low : c.toNat < 0x80
  · rw [encode_char_ascii c low, List.mem_singleton] at octet
    rw [octet, UInt8.toNat_ofNat_of_lt' (by change _ < 256; omega), Char.ofNat_toNat]
    exact member
  · have large := encode_char_large (Nat.not_lt.mp low) b octet
    exact absurd (UInt8.lt_iff_toNat_lt.mp ascii) (Nat.not_lt.mpr large)

theorem encode_char_prefix (c d : Char) (left right : Bytes)
    (same : String.utf8EncodeChar c ++ left = String.utf8EncodeChar d ++ right) : c = d ∧ left = right := by
  have first (e : Char) (rest : Bytes) :
      ByteArray.utf8DecodeChar? (String.utf8EncodeChar e ++ rest).toByteArray 0 = some e := by
    rw [List.toByteArray_append]
    exact ByteArray.utf8DecodeChar?_utf8EncodeChar_append
  have chars : c = d := by
    have both := first c left
    rw [same, first d right] at both
    exact (Option.some.inj both).symm
  subst chars
  exact ⟨rfl, List.append_cancel_left same⟩

-- A character's first octet is unlike every other octet of a spelling, so that a cut before a whole
-- character never falls within another one.
theorem spell_cut (chars : List Char) (before after : Bytes) (c : Char)
    (spelled : spell chars = before ++ String.utf8EncodeChar c ++ after) :
    ∃ left right, before = spell left ∧ after = spell right ∧ chars = left ++ c :: right := by
  induction chars generalizing before with
  | nil =>
    have empty := congrArg List.length spelled
    have size := c.utf8Size_pos
    simp [spell] at empty
    omega
  | cons d rest ih =>
    change String.utf8EncodeChar d ++ spell rest = before ++ String.utf8EncodeChar c ++ after at spelled
    by_cases start : before = []
    · subst start
      obtain ⟨rfl, rfl⟩ := encode_char_prefix d c (spell rest) after (by simpa using spelled)
      exact ⟨[], rest, rfl, rfl, rfl⟩
    · rw [List.append_assoc] at spelled
      obtain ⟨middle, rfl, tail⟩ | ⟨middle, whole, tail⟩ := List.append_eq_append_iff.mp spelled
      · obtain ⟨left, right, rfl, rfl, rfl⟩ := ih middle (by rw [tail, List.append_assoc])
        exact ⟨d :: left, right, rfl, rfl, rfl⟩
      · cases middle with
        | nil =>
          obtain ⟨left, right, empty, rfl, rfl⟩ := ih [] (by simpa using tail.symm)
          obtain rfl : left = [] := by
            cases left with
            | nil => rfl
            | cons e more =>
              have size := congrArg List.length empty
              have filled := e.utf8Size_pos
              simp [spell] at size
              omega
          exact ⟨[d], right, by simpa [spell] using whole.symm, rfl, rfl⟩
        | cons b more =>
          exfalso
          have inside : before.length < (String.utf8EncodeChar d).length := by
            rw [whole, List.length_append, List.length_cons]
            omega
          have octet : (String.utf8EncodeChar d)[before.length] = b := by
            simp [whole]
          have filled : 0 < (String.utf8EncodeChar c).length := by
            simpa using c.utf8Size_pos
          have lead : (String.utf8EncodeChar c)[0] = b := by
            have heads := congrArg List.head? tail
            rw [List.head?_append_of_ne_nil _ (List.ne_nil_of_length_pos filled), List.cons_append,
              List.head?_cons, List.head?_eq_getElem?, List.getElem?_eq_getElem filled] at heads
            exact Option.some.inj heads
          have leading : ((String.utf8EncodeChar d)[before.length]).IsUTF8FirstByte := by
            rw [octet, ← lead]
            exact UInt8.isUTF8FirstByte_getElem_utf8EncodeChar.mpr rfl
          have zero := UInt8.isUTF8FirstByte_getElem_utf8EncodeChar.mp leading
          exact start (List.eq_nil_of_length_eq_zero zero)

section Decoding

theorem to_nat_of_valid {n : Nat} (valid : n.isValidChar) : (Char.ofNat n).val.toNat = n := by
  rw [Char.ofNat, dif_pos valid]
  rfl

theorem octet_forall {P : UInt8 → Prop} (table : ∀ n < 256, P (UInt8.ofNat n)) (b : UInt8) : P b := by
  have entry := table b.toNat b.toNat_lt
  rwa [UInt8.ofNat_toNat] at entry

theorem octet_eq {n : Nat} {b : UInt8} (same : n = b.toNat) : UInt8.ofNat n = b := by
  rw [same, UInt8.ofNat_toNat]

theorem is_tail_iff (b : UInt8) : isTail b = true ↔ 0x80 ≤ b.toNat ∧ b.toNat ≤ 0xBF := by
  simp [isTail, UInt8.le_iff_toNat_le]

theorem single_spells {a : UInt8} (ascii : a < 0x80) : String.utf8EncodeChar (Char.ofNat a.toNat) = [a] := by
  have low : a.toNat < 0x80 := UInt8.lt_iff_toNat_lt.mp ascii
  have point : (Char.ofNat a.toNat).val.toNat = a.toNat := to_nat_of_valid (Or.inl (by omega))
  simp only [String.utf8EncodeChar, point]
  rw [if_pos (by omega), UInt8.ofNat_toNat]

theorem pair_spells {a b : UInt8} {c : Char} (read : pair? a b = some c) : String.utf8EncodeChar c = [a, b] := by
  unfold pair? at read
  split at read
  · rename_i form
    simp only [Bool.and_eq_true, decide_eq_true_eq, is_tail_iff, UInt8.le_iff_toNat_le] at form
    obtain ⟨⟨low, high⟩, tail⟩ := form
    change 0xC2 ≤ a.toNat at low
    change a.toNat ≤ 0xDF at high
    obtain rfl := Option.some.inj read
    have point : (Char.ofNat ((a.toNat - 0xC0) * 64 + payload b)).val.toNat = (a.toNat - 0xC0) * 64 + payload b :=
      to_nat_of_valid (Or.inl (by unfold payload; omega))
    simp only [String.utf8EncodeChar, point]
    unfold payload
    rw [if_neg (by omega), if_pos (by omega), octet_eq (b := a) (by omega), octet_eq (b := b) (by omega)]
  · cases read

theorem triple_spells {a b c : UInt8} {x : Char} (read : triple? a b c = some x) :
    String.utf8EncodeChar x = [a, b, c] := by
  simp only [triple?] at read
  split at read
  · rename_i form
    simp only [Bool.and_eq_true, decide_eq_true_eq, is_tail_iff, UInt8.le_iff_toNat_le, Bool.not_eq_true',
      Bool.and_eq_false_iff, decide_eq_false_iff_not, Nat.not_le] at form
    obtain ⟨⟨⟨⟨⟨low, high⟩, tailB⟩, tailC⟩, least⟩, apart⟩ := form
    change 0xE0 ≤ a.toNat at low
    change a.toNat ≤ 0xEF at high
    obtain rfl := Option.some.inj read
    unfold payload at least apart ⊢
    have point : (Char.ofNat ((a.toNat - 0xE0) * 4096 + (b.toNat - 0x80) * 64 + (c.toNat - 0x80))).val.toNat =
        (a.toNat - 0xE0) * 4096 + (b.toNat - 0x80) * 64 + (c.toNat - 0x80) :=
      to_nat_of_valid (by unfold Nat.isValidChar; omega)
    simp only [String.utf8EncodeChar, point]
    rw [if_neg (by omega), if_neg (by omega), if_pos (by omega), octet_eq (b := a) (by omega),
      octet_eq (b := b) (by omega), octet_eq (b := c) (by omega)]
  · cases read

theorem quadruple_spells {a b c d : UInt8} {x : Char} (read : quadruple? a b c d = some x) :
    String.utf8EncodeChar x = [a, b, c, d] := by
  simp only [quadruple?] at read
  split at read
  · rename_i form
    simp only [Bool.and_eq_true, decide_eq_true_eq, is_tail_iff, UInt8.le_iff_toNat_le] at form
    obtain ⟨⟨⟨⟨⟨⟨low, high⟩, tailB⟩, tailC⟩, tailD⟩, least⟩, greatest⟩ := form
    change 0xF0 ≤ a.toNat at low
    change a.toNat ≤ 0xF4 at high
    obtain rfl := Option.some.inj read
    unfold payload at least greatest ⊢
    have point : (Char.ofNat ((a.toNat - 0xF0) * 262144 + (b.toNat - 0x80) * 4096 + (c.toNat - 0x80) * 64 +
        (d.toNat - 0x80))).val.toNat =
        (a.toNat - 0xF0) * 262144 + (b.toNat - 0x80) * 4096 + (c.toNat - 0x80) * 64 + (d.toNat - 0x80) :=
      to_nat_of_valid (by unfold Nat.isValidChar; omega)
    simp only [String.utf8EncodeChar, point]
    rw [if_neg (by omega), if_neg (by omega), if_neg (by omega), octet_eq (b := a) (by omega),
      octet_eq (b := b) (by omega), octet_eq (b := c) (by omega), octet_eq (b := d) (by omega)]
  · cases read

-- Each step of decoding takes off the spelling of one character.
theorem decode_from_ok (octets : Bytes) (read : List Char) (length : Nat) (chars : List Char)
    (decoded : decodeFrom read length octets = .ok chars) :
    ∃ more, chars = read.reverse ++ more ∧ spell more = octets := by
  have onward {x : Char} {earlier : List Char} {front rest : Bytes} (spelled : String.utf8EncodeChar x = front)
      (below : ∃ more, chars = (x :: earlier).reverse ++ more ∧ spell more = rest) :
      ∃ more, chars = earlier.reverse ++ more ∧ spell more = front ++ rest := by
    obtain ⟨more, rfl, tail⟩ := below
    exact ⟨x :: more, by simp, by rw [← spelled, ← tail]; rfl⟩
  induction read, length, octets using decodeFrom.induct with
  | case1 read length =>
    obtain rfl := Except.ok.inj decoded
    exact ⟨[], by simp, rfl⟩
  | case2 read length a rest ascii ih =>
    unfold decodeFrom at decoded
    simp only [if_pos ascii] at decoded
    exact onward (single_spells ascii) (ih decoded)
  | case4 read length a large b rest x pair ih =>
    unfold decodeFrom at decoded
    simp only [if_neg large, pair] at decoded
    exact onward (pair_spells pair) (ih decoded)
  | case6 read length a large b noPair c rest x triple ih =>
    unfold decodeFrom at decoded
    simp only [if_neg large, noPair, triple] at decoded
    exact onward (triple_spells triple) (ih decoded)
  | case8 read length a large b noPair c noTriple d rest x quadruple ih =>
    unfold decodeFrom at decoded
    simp only [if_neg large, noPair, noTriple, quadruple] at decoded
    exact onward (quadruple_spells quadruple) (ih decoded)
  | case3 read length a large => simp [decodeFrom, large] at decoded
  | case5 read length a large b noPair => simp [decodeFrom, large, noPair] at decoded
  | case7 read length a large b noPair c noTriple => simp [decodeFrom, large, noPair, noTriple] at decoded
  | case9 read length a large b noPair c noTriple d rest none => simp [decodeFrom, large, noPair, noTriple, none] at decoded

theorem encode_of_decode {octets : Bytes} {text : String} (decoded : decode octets = .ok text) : encode text = octets := by
  obtain ⟨chars, found, rfl⟩ := (except_map_ok_iff _ _ _).mp decoded
  obtain ⟨more, rfl, spelled⟩ := decode_from_ok octets [] 0 chars found
  rw [encode_of_list]
  exact spelled

end Decoding

section Spelling

variable {v : Nat} {a b c d : UInt8}

theorem pair_of_point (first : a.toNat = v / 64 % 32 + 192) (second : b.toNat = v % 64 + 128) (least : 0x80 ≤ v)
    (greatest : v ≤ 0x7FF) : pair? a b = some (Char.ofNat v) := by
  have point : (a.toNat - 0xC0) * 64 + payload b = v := by
    unfold payload
    omega
  rw [pair?, point, if_pos]
  simp only [Bool.and_eq_true, decide_eq_true_eq, is_tail_iff, UInt8.le_iff_toNat_le]
  change (0xC2 ≤ a.toNat ∧ a.toNat ≤ 0xDF) ∧ _
  omega

theorem pair_of_lead (large : 0xE0 ≤ a.toNat) : pair? a b = none := by
  unfold pair?
  rw [if_neg]
  simp only [Bool.and_eq_true, decide_eq_true_eq, UInt8.le_iff_toNat_le]
  change ¬((_ ∧ a.toNat ≤ 0xDF) ∧ _)
  omega

theorem triple_of_point (first : a.toNat = v / 4096 % 16 + 224) (second : b.toNat = v / 64 % 64 + 128)
    (third : c.toNat = v % 64 + 128) (least : 0x800 ≤ v) (greatest : v ≤ 0xFFFF) (valid : v.isValidChar) :
    triple? a b c = some (Char.ofNat v) := by
  have point : (a.toNat - 0xE0) * 4096 + payload b * 64 + payload c = v := by
    unfold payload
    omega
  unfold Nat.isValidChar at valid
  simp only [triple?, point]
  rw [if_pos]
  simp only [Bool.and_eq_true, decide_eq_true_eq, is_tail_iff, UInt8.le_iff_toNat_le, Bool.not_eq_true',
    Bool.and_eq_false_iff, decide_eq_false_iff_not, Nat.not_le]
  change ((((0xE0 ≤ a.toNat ∧ a.toNat ≤ 0xEF) ∧ _) ∧ _) ∧ _) ∧ _
  omega

theorem triple_of_lead (large : 0xF0 ≤ a.toNat) : triple? a b c = none := by
  simp only [triple?]
  rw [if_neg]
  simp only [Bool.and_eq_true, decide_eq_true_eq, UInt8.le_iff_toNat_le]
  change ¬(((((_ ∧ a.toNat ≤ 0xEF) ∧ _) ∧ _) ∧ _) ∧ _)
  omega

theorem quadruple_of_point (first : a.toNat = v / 262144 % 8 + 240) (second : b.toNat = v / 4096 % 64 + 128)
    (third : c.toNat = v / 64 % 64 + 128) (fourth : d.toNat = v % 64 + 128) (least : 0x10000 ≤ v)
    (greatest : v ≤ 0x10FFFF) : quadruple? a b c d = some (Char.ofNat v) := by
  have point : (a.toNat - 0xF0) * 262144 + payload b * 4096 + payload c * 64 + payload d = v := by
    unfold payload
    omega
  simp only [quadruple?, point]
  rw [if_pos]
  simp only [Bool.and_eq_true, decide_eq_true_eq, is_tail_iff, UInt8.le_iff_toNat_le]
  change (((((0xF0 ≤ a.toNat ∧ a.toNat ≤ 0xF4) ∧ _) ∧ _) ∧ _) ∧ _) ∧ _
  omega

theorem decode_from_char (read : List Char) (length : Nat) (x : Char) (rest : Bytes) :
    ∃ longer, decodeFrom read length (String.utf8EncodeChar x ++ rest) = decodeFrom (x :: read) longer rest := by
  have valid : x.val.toNat.isValidChar := x.valid
  have reach : x.val.toNat ≤ 0x10FFFF := by
    unfold Nat.isValidChar at valid
    omega
  have octet {n : Nat} (small : n < 256) : (UInt8.ofNat n).toNat = n := UInt8.toNat_ofNat_of_lt' small
  have large {b : UInt8} {n : Nat} (lead : b.toNat = n) (high : 0x80 ≤ n) : ¬b < 0x80 := by
    rw [UInt8.lt_iff_toNat_lt, lead]
    exact Nat.not_lt.mpr high
  have point : x.toNat = x.val.toNat := rfl
  rw [← Char.ofNat_toNat x, point]
  generalize x.val.toNat = v at valid reach
  simp only [String.utf8EncodeChar, to_nat_of_valid valid]
  by_cases one : v ≤ 0x7F
  · have ascii : UInt8.ofNat v < 0x80 := by
      rw [UInt8.lt_iff_toNat_lt, octet (by omega)]
      exact Nat.lt_succ_of_le one
    refine ⟨length + 1, ?_⟩
    rw [if_pos one, List.singleton_append, decodeFrom.eq_def]
    simp only [if_pos ascii, octet (n := v) (by omega)]
  rw [if_neg one]
  by_cases two : v ≤ 0x7FF
  · have lead := octet (n := v / 64 % 32 + 192) (by omega)
    have pair := pair_of_point (v := v) lead (octet (by omega)) (by omega) two
    refine ⟨length + 2, ?_⟩
    rw [if_pos two, List.cons_append, List.singleton_append, decodeFrom.eq_def]
    simp only [if_neg (large lead (by omega)), pair]
  rw [if_neg two]
  by_cases three : v ≤ 0xFFFF
  · have lead := octet (n := v / 4096 % 16 + 224) (by omega)
    have high : 0xE0 ≤ v / 4096 % 16 + 224 := by omega
    have triple := triple_of_point (v := v) lead (octet (by omega)) (octet (by omega)) (by omega) three valid
    refine ⟨length + 3, ?_⟩
    rw [if_pos three, List.cons_append, List.cons_append, List.singleton_append, decodeFrom.eq_def]
    simp only [if_neg (large lead (by omega)), pair_of_lead (lead.symm ▸ high), triple]
  · have lead := octet (n := v / 262144 % 8 + 240) (by omega)
    have high : 0xF0 ≤ v / 262144 % 8 + 240 := by omega
    have quadruple := quadruple_of_point (v := v) lead (octet (by omega)) (octet (by omega)) (octet (by omega)) (by omega)
      reach
    refine ⟨length + 4, ?_⟩
    rw [if_neg three, List.cons_append, List.cons_append, List.cons_append, List.singleton_append, decodeFrom.eq_def]
    simp only [if_neg (large lead (by omega)), pair_of_lead (lead.symm ▸ Nat.le_trans (by decide) high),
      triple_of_lead (lead.symm ▸ high), quadruple]

theorem decode_from_spell (read : List Char) (length : Nat) (chars : List Char) :
    decodeFrom read length (spell chars) = .ok (read.reverse ++ chars) := by
  induction chars generalizing read length with
  | nil => simp [spell, decodeFrom]
  | cons c rest ih =>
    obtain ⟨longer, taken⟩ := decode_from_char read length c (spell rest)
    change decodeFrom read length (String.utf8EncodeChar c ++ spell rest) = _
    rw [taken, ih]
    simp

theorem decode_spell (chars : List Char) : decode (spell chars) = .ok (String.ofList chars) := by
  rw [decode, decode_from_spell]
  rfl

end Spelling

section Valid

def Valid (octets : Bytes) : Prop :=
  ∃ chars, spell chars = octets

theorem valid_append {left right : Bytes} (before : Valid left) (after : Valid right) : Valid (left ++ right) := by
  obtain ⟨first, rfl⟩ := before
  obtain ⟨second, rfl⟩ := after
  exact ⟨first ++ second, spell_append first second⟩

theorem valid_ascii (octets : Bytes) (ascii : ∀ b ∈ octets, b < 0x80) : Valid octets := by
  induction octets with
  | nil => exact ⟨[], rfl⟩
  | cons b rest ih =>
    rw [List.forall_mem_cons] at ascii
    have first : Valid [b] := ⟨[Char.ofNat b.toNat], by simp [spell, single_spells ascii.1]⟩
    exact valid_append first (ih ascii.2)

theorem text_of_valid {octets : Bytes} (valid : Valid octets) : ∃ text, encode text = octets := by
  obtain ⟨chars, rfl⟩ := valid
  exact ⟨String.ofList chars, encode_of_list chars⟩

theorem encode_injective {a b : String} (same : encode a = encode b) : a = b := by
  have octets : a.toByteArray = b.toByteArray := by
    apply ByteArray.ext
    exact Array.toList_inj.mp same
  exact String.toByteArray_inj.mp octets

end Valid

end ClientHints.Utf8
