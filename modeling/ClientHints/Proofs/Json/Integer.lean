import ClientHints.Proofs.Json.Numeral
import ClientHints.Proofs.Json.Quoted

set_option autoImplicit false

namespace ClientHints.Json

open Grammar

namespace Literal

section Digits

-- No digit gets lost once the number is not zero.
theorem digits_onward {n : Nat} {values : List Nat} (positive : 0 < n) (bounds : ∀ value ∈ values, value < 10) :
    Nat.toDigits 10 n ++ values.map Nat.digitChar = Nat.toDigits 10 (valueFrom n values) := by
  induction values generalizing n with
  | nil => exact List.append_nil _
  | cons value rest ih =>
    obtain ⟨bound, others⟩ := List.forall_mem_cons.mp bounds
    have one := Nat.toDigits_append_toDigits (by decide : 1 < 10) positive bound
    rw [Nat.toDigits_of_lt_base bound, Nat.mul_comm] at one
    have further := ih (n := n * 10 + value) (by omega) others
    rw [← one, List.append_assoc] at further
    exact further

theorem whole_digits {octets : Bytes} {values : List Nat} (written : WritesWhole octets values) :
    Nat.toDigits 10 (valueFrom 0 values) = values.map Nat.digitChar := by
  obtain ⟨⟨nonempty, bounds⟩, leading⟩ := written
  cases values with
  | nil => exact absurd rfl nonempty
  | cons value rest =>
    obtain ⟨bound, others⟩ := List.forall_mem_cons.mp bounds
    have first := Nat.toDigits_of_lt_base bound
    have onset : valueFrom 0 (value :: rest) = valueFrom value rest := by simp [valueFrom]
    rw [onset]
    by_cases zero : value = 0
    · subst zero
      obtain ⟨-, rfl⟩ := List.cons.inj (leading rfl)
      exact first
    · rw [← digits_onward (Nat.pos_of_ne_zero zero) others, first]
      rfl

theorem whole_octets {octets : Bytes} {values : List Nat} (written : WritesWhole octets values) :
    Utf8.encode (toString (valueFrom 0 values)) = octets := by
  have digits := whole_digits written
  obtain ⟨⟨nonempty, bounds⟩, -⟩ := written
  have point {value : Nat} (bound : value < 10) : (Nat.digitChar value).toNat = 0x30 + value :=
    Nat.toNat_digitChar_of_lt_ten bound
  have ascii : ∀ c ∈ values.map Nat.digitChar, c.toNat < 0x80 := by
    intro c member
    obtain ⟨value, listed, rfl⟩ := List.mem_map.mp member
    have bound := bounds value listed
    rw [point bound]
    omega
  rw [Nat.toString_eq_ofList_toDigits, digits, Utf8.encode_of_list, Utf8.spell_ascii _ ascii, List.map_map]
  exact List.map_congr_left fun value listed => congrArg UInt8.ofNat (point (bounds value listed))

end Digits

theorem amount_written {l : Literal} {values : List Nat} (whole : l.whole = values.reverse) :
    l.amount = valueFrom 0 values := by
  rw [amount, whole, ← value_from_reverse, List.reverse_reverse]

theorem integer_octets {octets : Bytes} {l : Literal} (written : WritesLiteral octets l) (exact : l.IsInteger) :
    Utf8.encode (Number.whole l.integer).text = octets := by
  obtain ⟨noFraction, noPower, -, -, noMinusZero⟩ := exact
  cases written with
  | @parts sign whole fraction power negative before after exponent signed first second third =>
    have fractionless : fraction = [] := by
      cases second with
      | none => rfl
      | point digits =>
        cases digits with
        | digits nonempty _ => exact absurd (List.reverse_eq_nil_iff.mp noFraction) nonempty
    have powerless : power = [] := by
      cases third with
      | none => rfl
      | power => cases noPower
    have digits := whole_octets first
    subst fractionless powerless
    rw [List.append_nil, List.append_nil]
    cases signed with
    | none =>
      rw [integer_positive rfl, amount_written rfl]
      exact digits
    | minus =>
      have apart := noMinusZero rfl
      rw [integer_negative rfl, amount_written rfl] at apart ⊢
      obtain ⟨m, positive⟩ : ∃ m, valueFrom 0 before = m + 1 := Nat.exists_eq_succ_of_ne_zero (by omega)
      rw [positive] at digits ⊢
      change Utf8.encode ("-" ++ toString (m + 1)) = _
      rw [Utf8.encode_append, digits]
      rfl

section Writing

theorem natural_written (n : Nat) : ∃ values, WritesWhole (Utf8.encode (toString n)) values ∧ valueFrom 0 values = n := by
  induction n using Nat.strongRecOn with
  | ind n ih =>
    suffices listed : ∃ octets values, WritesWhole octets values ∧ valueFrom 0 values = n by
      obtain ⟨octets, values, written, rfl⟩ := listed
      exact ⟨values, whole_octets written ▸ written, rfl⟩
    by_cases small : n < 10
    · exact ⟨_, [n], .digits (Numeral.digits_one small) fun zero => by simpa using zero, by simp [valueFrom]⟩
    · obtain ⟨values, written, value⟩ := ih (n / 10) (by omega)
      have apart : values.head? ≠ some 0 := by
        intro zero
        obtain ⟨-, leading⟩ := written
        rw [leading zero] at value
        change 0 = n / 10 at value
        omega
      refine ⟨_, _, Numeral.whole_more written apart (Nat.mod_lt n (by decide)), ?_⟩
      rw [valueFrom, List.foldl_append]
      change valueFrom 0 values * 10 + n % 10 = n
      omega

theorem integer_written {n : Int} (least : -2 ^ 63 ≤ n) (greatest : n < 2 ^ 64) :
    ∃ l : Literal, WritesLiteral (Utf8.encode (Number.whole n).text) l ∧ l.IsInteger ∧ l.integer = n := by
  cases n with
  | ofNat k =>
    obtain ⟨values, written, value⟩ := natural_written k
    have integer : Literal.integer ⟨false, values.reverse, [], none⟩ = k := by
      rw [integer_positive rfl, amount_written rfl, value]
    exact ⟨_, Numeral.literal_of_whole .none written,
      ⟨rfl, rfl, le_of_le_of_eq least integer.symm, lt_of_eq_of_lt integer greatest, nofun⟩, integer⟩
  | negSucc k =>
    obtain ⟨values, written, value⟩ := natural_written (k + 1)
    have integer : Literal.integer ⟨true, values.reverse, [], none⟩ = Int.negSucc k := by
      rw [integer_negative rfl, amount_written rfl, value]
      rfl
    have octets : [0x2D] ++ Utf8.encode (toString (k + 1)) = Utf8.encode (Number.whole (Int.negSucc k)).text :=
      (Utf8.encode_append "-" (toString (k + 1))).symm
    refine ⟨_, octets ▸ Numeral.literal_of_whole .minus written,
      ⟨rfl, rfl, le_of_le_of_eq least integer.symm, lt_of_eq_of_lt integer greatest, fun _ => ?_⟩, integer⟩
    rw [integer]
    nofun

end Writing

end Literal

section Quotation

theorem digit_plain {c : Char} (digit : c.isDigit) : 0x20 ≤ c.toNat ∧ c ≠ '"' ∧ c ≠ '\\' := by
  obtain ⟨low, high⟩ := Char.isDigit_iff_toNat.mp digit
  change 48 ≤ c.toNat at low
  refine ⟨by omega, ?_, ?_⟩
  · intro quote
    subst quote
    exact absurd low (by decide)
  · intro backslash
    subst backslash
    exact absurd high (by decide)

theorem natural_plain (n : Nat) : ∀ c ∈ (toString n).toList, 0x20 ≤ c.toNat ∧ c ≠ '"' ∧ c ≠ '\\' := by
  rw [Nat.toString_eq_ofList_toDigits, String.toList_ofList]
  exact fun c member => digit_plain (Nat.isDigit_of_mem_toDigits (by decide) (by decide) member)

theorem integer_plain (n : Int) : ∀ c ∈ (Number.whole n).text.toList, 0x20 ≤ c.toNat ∧ c ≠ '"' ∧ c ≠ '\\' := by
  cases n with
  | ofNat n => exact natural_plain n
  | negSucc n =>
    change ∀ c ∈ ("-" ++ toString (n + 1)).toList, _
    rw [String.toList_append, List.forall_mem_append]
    exact ⟨List.forall_mem_singleton.mpr ⟨by decide, by decide, by decide⟩, natural_plain (n + 1)⟩

theorem integer_quoted {octets : Bytes} {l : Literal} (written : WritesLiteral octets l) (exact : l.IsInteger) :
    WritesString ([0x22] ++ octets ++ [0x22]) (Number.whole l.integer).text := by
  have plain : ∀ b ∈ Utf8.spell (Number.whole l.integer).text.toList, Quoted.IsPlain b := by
    intro b member
    obtain ⟨c, listed, inside⟩ := List.mem_flatMap.mp member
    exact (Quoted.plain_char_iff c).mpr (integer_plain l.integer c listed) b inside
  have chars := Quoted.plain_writes _ plain
  rw [← Utf8.encode_eq_spell, Literal.integer_octets written exact] at chars
  have quoted := WritesString.quoted chars
  rwa [String.ofList_toList] at quoted

end Quotation

end ClientHints.Json
