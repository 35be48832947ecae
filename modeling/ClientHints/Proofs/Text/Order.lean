import ClientHints.Proofs.Text.Utf8

set_option autoImplicit false

namespace ClientHints.Utf8

-- A larger character has the larger octet where the two differ first, so what follows it does not count.
theorem encode_char_lt {c d : Char} (less : c < d) (left right : Bytes) :
    String.utf8EncodeChar c ++ left < String.utf8EncodeChar d ++ right := by
  have points : c.val.toNat < d.val.toNat := less
  have bound : d.val.toNat < 0x110000 := by
    have valid : d.val.toNat.isValidChar := d.valid
    unfold Nat.isValidChar at valid
    omega
  have octet {n : Nat} (small : n < 256) : (UInt8.ofNat n).toNat = n := UInt8.toNat_ofNat_of_lt' small
  have lead {n : Nat} (small : n < 0x110000) : n / 262144 % 8 = n / 262144 := by omega
  unfold String.utf8EncodeChar
  extract_lets v w
  change v < w at points
  change w < _ at bound
  clear_value v w
  rw [lead bound, lead (Nat.lt_trans points bound)]
  -- By how many octets each has; the smaller character has no more of them.
  split_ifs
  all_goals try (exfalso; omega)
  all_goals
    simp only [List.cons_append, List.nil_append, List.cons_lt_cons_iff, UInt8.lt_iff_toNat_lt, ← UInt8.toNat_inj]
    simp (disch := omega) only [octet]
    omega

theorem spell_lt {left right : List Char} (less : left < right) : spell left < spell right := by
  induction left generalizing right with
  | nil =>
    cases right with
    | nil => exact absurd less (List.not_lt_nil _)
    | cons d more =>
      have filled : spell (d :: more) ≠ [] := by
        have size := d.utf8Size_pos
        rw [← List.length_pos_iff]
        simp only [spell, List.flatMap_cons, List.length_append, String.length_utf8EncodeChar]
        omega
      obtain ⟨octet, octets, spelled⟩ := List.exists_cons_of_ne_nil filled
      rw [spelled]
      exact List.nil_lt_cons octet octets
  | cons c rest ih =>
    cases right with
    | nil => exact absurd less (List.not_lt_nil _)
    | cons d more =>
      change String.utf8EncodeChar c ++ spell rest < String.utf8EncodeChar d ++ spell more
      obtain earlier | ⟨rfl, later⟩ := List.cons_lt_cons_iff.mp less
      · exact encode_char_lt earlier _ _
      · exact List.append_left_lt (ih later)

theorem encode_lt {a b : String} (less : a < b) : encode a < encode b := by
  rw [encode_eq_spell, encode_eq_spell]
  exact spell_lt (String.lt_iff.mp less)

end ClientHints.Utf8
