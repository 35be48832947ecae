/-!
Finite binary64 values as exact pairs: a significand below `2 ^ 53` and the exponent of its last
place. `round?` is the one rounding of the format, and products and quotients round once.
-/

set_option autoImplicit false

namespace ClientHints

-- The value `± significand * 2 ^ exponent`.
structure Binary64 where
  negative : Bool
  significand : Nat
  exponent : Int
deriving DecidableEq, Repr

namespace Binary64

def leastExponent : Int := -1074

def greatestExponent : Int := 971

def zero : Binary64 := ⟨false, 0, leastExponent⟩

def negate (x : Binary64) : Binary64 :=
  { x with negative := !x.negative }

-- The whole number nearest to `num / den`, a half going to the even neighbour.
def roundDiv (num den : Nat) : Nat :=
  let below := num / den
  let twice := 2 * (num % den)
  if twice < den then below
  else if den < twice then below + 1
  else below + below % 2

def lastPlace (num den : Nat) : Int :=
  let near : Int := (num.log2 : Int) - (den.log2 : Int)
  let top := if den * Nat.pow 2 near.toNat ≤ num * Nat.pow 2 (-near).toNat then near else near - 1
  max (top - 52) leastExponent

def round? (num den : Nat) : Option Binary64 :=
  if num = 0 then some zero
  else
    let place := lastPlace num den
    let rounded := roundDiv (num * Nat.pow 2 (-place).toNat) (den * Nat.pow 2 place.toNat)
    if rounded = Nat.pow 2 53 then
      if greatestExponent ≤ place then none else some ⟨false, Nat.pow 2 52, place + 1⟩
    else if greatestExponent < place then none
    else some ⟨false, rounded, place⟩

def ofNat? (n : Nat) : Option Binary64 :=
  round? n 1

def tenTo? (k : Nat) : Option Binary64 :=
  ofNat? (Nat.pow 10 k)

def times? (x y : Binary64) : Option Binary64 :=
  let exponent := x.exponent + y.exponent
  round? (x.significand * y.significand * Nat.pow 2 exponent.toNat) (Nat.pow 2 (-exponent).toNat)

def over? (x y : Binary64) : Option Binary64 :=
  let exponent := x.exponent - y.exponent
  round? (x.significand * Nat.pow 2 exponent.toNat) (y.significand * Nat.pow 2 (-exponent).toNat)

def ofBits? (bits : UInt64) : Option Binary64 :=
  let word : Nat := bits.toNat
  let fraction : Nat := word % Nat.pow 2 52
  let biased : Nat := word / Nat.pow 2 52 % Nat.pow 2 11
  let negative := decide (Nat.pow 2 63 ≤ word)
  if biased = 2047 then none
  else if biased = 0 then some ⟨negative, fraction, leastExponent⟩
  else some ⟨negative, Nat.pow 2 52 + fraction, (biased : Int) - 1075⟩

def same (x y : Binary64) : Bool :=
  x == y || (x.significand == 0 && y.significand == 0)

end Binary64

end ClientHints
