import ClientHints.Decimal.Shortest

/-!
Numbers of a JSON document, the literals they are written as, and scalars of other data formats.

Whole numbers of a machine word and floats never mix: `1` and `1.0` are different numbers. The leading digits of a literal
that stay below `2 ^ 64` make up the significand, and later digits of the whole part only raise the exponent. A literal that
is not a whole number of a machine word becomes a float in two or more roundings: the significand is rounded, then multiplied
or divided by rounded powers of ten.
-/

set_option autoImplicit false

namespace ClientHints.Json

inductive Number where
  | whole (n : Int)
  | float (x : Binary64)
deriving DecidableEq, Repr

namespace Number

-- Floats are positional from `0.00001` up to sixteen digits before the point.
def layout : Decimal.Layout := ⟨-5, 15⟩

def text : Number → String
  | .whole n => toString n
  | .float x => layout.write x

def same : Number → Number → Bool
  | .whole m, .whole n => m == n
  | .float x, .float y => x.same y
  | _, _ => false

end Number

-- Digits stand last one first, those of the whole part and those after the point; an exponent is a sign and a magnitude.
structure Literal where
  negative : Bool
  whole : List Nat
  fraction : List Nat
  power : Option (Bool × Nat)
deriving DecidableEq, Repr

namespace Literal

def significandBound : Nat := Nat.pow 2 64

def powerBound : Nat := Nat.pow 2 31 - 1

def absorb (significand : Nat) : List Nat → Nat × List Nat
  | [] => (significand, [])
  | digit :: rest =>
    if significand * 10 + digit < significandBound then absorb (significand * 10 + digit) rest
    else (significand, digit :: rest)

def wholePart (l : Literal) : Nat × List Nat :=
  absorb 0 l.whole.reverse

def scaled (l : Literal) : Nat × Int :=
  let (significand, dropped) := l.wholePart
  let (extended, unused) := absorb significand l.fraction.reverse
  (extended, (dropped.length : Int) - ((l.fraction.length - unused.length : Nat) : Int))

def powerValue (l : Literal) : Int :=
  match l.power with
  | none => 0
  | some (false, magnitude) => magnitude
  | some (true, magnitude) => -(magnitude : Int)

def overflows (l : Literal) : Bool :=
  match l.power with
  | some (false, magnitude) =>
    decide (powerBound < magnitude) && (l.whole.any (· != 0) || l.fraction.any (· != 0))
  | _ => false

def shrink? : Nat → Binary64 → Option Binary64
  | 0, x => some x
  | times + 1, x =>
    if x.significand = 0 then some x
    else do
      let smaller ← x.over? (← Binary64.tenTo? 308)
      shrink? times smaller

def scale? (significand : Nat) (exponent : Int) : Option Binary64 := do
  let x ← Binary64.ofNat? significand
  if significand = 0 then pure x
  else if 308 < exponent then none
  else if 0 ≤ exponent then x.times? (← Binary64.tenTo? exponent.toNat)
  else
    let places := (-exponent).toNat - 1
    let smaller ← shrink? (places / 308) x
    smaller.over? (← Binary64.tenTo? (places % 308 + 1))

def float? (l : Literal) : Option Number := do
  let (significand, exponent) := l.scaled
  let x ← scale? significand (exponent + l.powerValue)
  pure (.float (if l.negative then x.negate else x))

-- A zero with a minus sign is a float.
def number? (l : Literal) : Option Number :=
  if l.overflows then none
  else
    let (significand, dropped) := l.wholePart
    if !l.fraction.isEmpty || l.power.isSome || !dropped.isEmpty then l.float?
    else if !l.negative then some (.whole significand)
    else if significand = 0 || Nat.pow 2 63 < significand then l.float?
    else some (.whole (-(significand : Int)))

end Literal

inductive Scalar where
  | unit
  | absent
  -- A float, by its binary64 word.
  | float (word : UInt64)
  | whole (value : Int)
  | text (value : String)
  | char (value : Char)
  | octets
deriving DecidableEq, Repr

end ClientHints.Json
