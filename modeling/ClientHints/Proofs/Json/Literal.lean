import ClientHints.Proofs.Json.Grammar

set_option autoImplicit false

namespace ClientHints.Json.Literal

section Significand

def valueFrom (significand : Nat) (digits : List Nat) : Nat :=
  digits.foldl (fun value digit => value * 10 + digit) significand

theorem value_from_reverse (digits : List Nat) : valueFrom 0 digits.reverse = Nat.ofDigits 10 digits := by
  rw [valueFrom, List.foldl_reverse, Nat.ofDigits_eq_foldr]
  congr
  funext digit value
  simp only [Nat.cast_id]
  omega

theorem value_from_le (significand : Nat) (digits : List Nat) : significand ≤ valueFrom significand digits := by
  induction digits generalizing significand with
  | nil => exact Nat.le_refl _
  | cons digit rest ih =>
    have longer := ih (significand * 10 + digit)
    change significand ≤ valueFrom (significand * 10 + digit) rest
    omega

theorem absorb_fits {significand : Nat} {digits : List Nat} (fits : valueFrom significand digits < significandBound) :
    absorb significand digits = (valueFrom significand digits, []) := by
  induction digits generalizing significand with
  | nil => rfl
  | cons digit rest ih =>
    have first := value_from_le (significand * 10 + digit) rest
    rw [absorb, if_pos (Nat.lt_of_le_of_lt first fits)]
    exact ih fits

theorem absorb_exceeds {significand : Nat} {digits : List Nat} (started : significand < significandBound)
    (exceeds : significandBound ≤ valueFrom significand digits) : (absorb significand digits).2 ≠ [] := by
  induction digits generalizing significand with
  | nil => exact absurd started (Nat.not_lt.mpr exceeds)
  | cons digit rest ih =>
    rw [absorb]
    split
    · rename_i longer
      exact ih longer exceeds
    · exact List.cons_ne_nil digit rest

variable (l : Literal)

theorem whole_part_fits (fits : l.amount < 2 ^ 64) : l.wholePart = (l.amount, []) := by
  rw [amount, ← value_from_reverse] at fits ⊢
  exact absorb_fits fits

theorem whole_part_exceeds (exceeds : 2 ^ 64 ≤ l.amount) : l.wholePart.2 ≠ [] := by
  rw [amount, ← value_from_reverse] at exceeds
  exact absorb_exceeds (by decide) exceeds

end Significand

variable {l : Literal}

theorem integer_positive (sign : l.negative = false) : l.integer = l.amount := by
  rw [integer, sign]
  rfl

theorem integer_negative (sign : l.negative = true) : l.integer = -(l.amount : Int) := by
  rw [integer, sign]
  rfl

theorem number_without_point (noFraction : l.fraction = []) (noPower : l.power = none)
    (fits : l.amount < 2 ^ 64) :
    l.number? =
      if l.negative = false then some (.whole l.amount)
      else if l.amount = 0 ∨ 2 ^ 63 < l.amount then l.float?
      else some (.whole (-l.amount)) := by
  have calm : l.overflows = false := by
    rw [overflows, noPower]
  simp [number?, calm, noFraction, noPower, whole_part_fits l fits]

theorem number_of_integer (exact : l.IsInteger) : l.number? = some (.whole l.integer) := by
  obtain ⟨noFraction, noPower, least, greatest, noMinusZero⟩ := exact
  cases sign : l.negative with
  | false =>
    rw [integer_positive sign] at greatest ⊢
    rw [number_without_point noFraction noPower (by omega), if_pos sign]
  | true =>
    have apart := noMinusZero sign
    rw [integer_negative sign] at least apart ⊢
    have inside : ¬(l.amount = 0 ∨ 2 ^ 63 < l.amount) := by omega
    rw [number_without_point noFraction noPower (by omega), if_neg (by simp [sign]), if_neg inside]

theorem number_of_other (other : ¬l.IsInteger) : l.number? = l.convert? := by
  cases overflow : l.overflows with
  | true => simp [number?, convert?, overflow]
  | false =>
    rw [convert?, overflow]
    by_cases marked : l.fraction ≠ [] ∨ l.power ≠ none ∨ 2 ^ 64 ≤ l.amount
    · have float : (!l.fraction.isEmpty || l.power.isSome || !l.wholePart.2.isEmpty) = true := by
        obtain fraction | power | exceeds := marked
        · simp [fraction]
        · simp [Option.isSome_iff_ne_none, power]
        · simp [whole_part_exceeds l exceeds]
      simp only [number?, overflow, float]
      rfl
    · push Not at marked
      obtain ⟨noFraction, noPower, fits⟩ := marked
      rw [number_without_point noFraction noPower fits]
      cases sign : l.negative with
      | false =>
        have integer : l.IsInteger := by
          refine ⟨noFraction, noPower, ?_, ?_, by simp [sign]⟩
          · rw [integer_positive sign]
            omega
          · rw [integer_positive sign]
            omega
        exact absurd integer other
      | true =>
        by_cases outside : l.amount = 0 ∨ 2 ^ 63 < l.amount
        · rw [if_neg (by simp), if_pos outside]
          rfl
        · have integer : l.IsInteger := by
            rw [not_or] at outside
            refine ⟨noFraction, noPower, ?_, ?_, fun _ => ?_⟩
            all_goals rw [integer_negative sign]; omega
          exact absurd integer other

theorem number_iff (number : Number) : l.number? = some number ↔ l.Denotes number := by
  by_cases exact : l.IsInteger
  · rw [number_of_integer exact]
    constructor
    · rintro ⟨rfl⟩
      exact .integer exact
    · rintro (_ | ⟨other, _⟩)
      · rfl
      · exact absurd exact other
  · rw [number_of_other exact]
    constructor
    · exact .converted exact
    · rintro (integer | ⟨_, found⟩)
      · exact absurd integer exact
      · exact found

end ClientHints.Json.Literal
