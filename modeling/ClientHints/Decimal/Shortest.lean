import ClientHints.Decimal.Binary64

/-!
The shortest decimal of a binary64 value: the fewest digits that read back to it, and of the decimals
with so few digits the nearest. `readsBack` is the test, and `shortest` tries ever finer grids.
-/

set_option autoImplicit false

namespace ClientHints

-- The value `digits * 10 ^ exponent`.
structure Decimal where
  digits : Nat
  exponent : Int
deriving DecidableEq, Repr

namespace Decimal

def compareScaled (a : Nat) (i : Int) (n : Nat) (j : Int) : Ordering :=
  compare (a * Nat.pow 10 i.toNat * Nat.pow 2 (-j).toNat) (n * Nat.pow 2 j.toNat * Nat.pow 10 (-i).toNat)

-- The decimal lies among the numbers that round to the magnitude of the value. The neighbour below a
-- power of two is half as far away as the one above, and the ends belong to the even significand.
def readsBack (x : Binary64) (d : Decimal) : Bool :=
  let narrow := x.significand == Nat.pow 2 52 && Binary64.leastExponent < x.exponent
  let low := if narrow then 4 * x.significand - 1 else 4 * x.significand - 2
  let high := 4 * x.significand + 2
  let closed := x.significand % 2 == 0
  let atLow := compareScaled d.digits d.exponent low (x.exponent - 2)
  let atHigh := compareScaled d.digits d.exponent high (x.exponent - 2)
  (atLow == .gt || (closed && atLow == .eq)) && (atHigh == .lt || (closed && atHigh == .eq))

-- The least `k` with the magnitude below `10 ^ k`, for a value that is not zero.
def magnitude (x : Binary64) : Int :=
  let guess := Int.fdiv (((x.significand.log2 : Int) + x.exponent) * 30103) 100000
  if compareScaled 1 guess x.significand x.exponent == .gt then guess
  else if compareScaled 1 (guess + 1) x.significand x.exponent == .gt then guess + 1
  else guess + 2

-- The better of the value's two neighbours on the grid of `10 ^ place`, if one reads back; of two
-- that are equally near the even one.
def onGrid? (x : Binary64) (place : Int) : Option Decimal :=
  let num := x.significand * Nat.pow 2 x.exponent.toNat * Nat.pow 10 (-place).toNat
  let den := Nat.pow 2 (-x.exponent).toNat * Nat.pow 10 place.toNat
  let below : Decimal := ⟨num / den, place⟩
  let above : Decimal := ⟨num / den + 1, place⟩
  match readsBack x below, readsBack x above with
  | true, true => some (if Binary64.roundDiv num den = num / den then below else above)
  | true, false => some below
  | false, true => some above
  | false, false => none

def exact (x : Binary64) : Decimal :=
  ⟨x.significand * Nat.pow 2 x.exponent.toNat * Nat.pow 5 (-x.exponent).toNat, min x.exponent 0⟩

def shortest (x : Binary64) : Decimal :=
  if x.significand = 0 then ⟨0, 0⟩
  else
    let top := magnitude x
    ((List.range 17).findSome? fun (used : Nat) => onGrid? x (top - (used : Int) - 1)).getD (exact x)

-- The exponents of the leading digit for which a number is written positionally.
structure Layout where
  least : Int
  greatest : Int

def zeros (count : Nat) : List Char :=
  List.replicate count '0'

def positional (digits : List Char) (exponent : Int) : List Char :=
  if exponent < 0 then
    '0' :: '.' :: (zeros ((-exponent).toNat - 1) ++ digits)
  else
    let whole := exponent.toNat + 1
    if digits.length ≤ whole then digits ++ zeros (whole - digits.length) ++ ['.', '0']
    else digits.take whole ++ '.' :: digits.drop whole

def scientific (digits : List Char) (exponent : Int) : List Char :=
  let mantissa := match digits with
    | first :: second :: others => first :: '.' :: second :: others
    | few => few
  mantissa ++ 'e' :: (if exponent < 0 then '-' else '+') :: (toString exponent.natAbs).toList

def significant (digits : List Char) : List Char :=
  (digits.reverse.dropWhile (· == '0')).reverse

def Layout.magnitude (layout : Layout) (d : Decimal) : List Char :=
  if d.digits = 0 then ['0', '.', '0']
  else
    let all := Nat.toDigits 10 d.digits
    let exponent := (all.length : Int) - 1 + d.exponent
    if layout.least ≤ exponent && exponent ≤ layout.greatest then
      positional (significant all) exponent
    else scientific (significant all) exponent

def Layout.write (layout : Layout) (x : Binary64) : String :=
  let digits := layout.magnitude (shortest x)
  String.ofList (if x.negative then '-' :: digits else digits)

end Decimal

end ClientHints
