import ClientHints.Json.Fault
import ClientHints.Json.Scalar

set_option autoImplicit false

namespace ClientHints.Json

inductive Numeral.Part where
  | sign
  -- A zero, which no digit may follow.
  | zero
  | whole
  | point
  | fraction
  | mark
  | markSign
  | power
deriving DecidableEq, Repr

structure Numeral where
  part : Numeral.Part
  literal : Literal
deriving DecidableEq, Repr

namespace Numeral

inductive Step where
  | more (n : Numeral)
  | ended
  | refused (reason : Reason)

def start (negative : Bool) : Numeral :=
  ⟨.sign, ⟨negative, [], [], none⟩⟩

def digit? (b : UInt8) : Option Nat :=
  if 0x30 ≤ b && b ≤ 0x39 then some (b.toNat - 0x30) else none

def isMark (b : UInt8) : Bool :=
  b == 0x65 || b == 0x45

def afterWhole (l : Literal) (b : UInt8) : Step :=
  if b = 0x2E then .more ⟨.point, l⟩
  else if isMark b then .more ⟨.mark, l⟩
  else .ended

def afterMark (l : Literal) (b : UInt8) : Step :=
  if b = 0x2B then .more ⟨.markSign, { l with power := some (false, 0) }⟩
  else if b = 0x2D then .more ⟨.markSign, { l with power := some (true, 0) }⟩
  else .refused .invalidNumber

def powerDigit (l : Literal) (digit : Nat) : Step :=
  let (negative, magnitude) := l.power.getD (false, 0)
  let longer := { l with power := some (negative, magnitude * 10 + digit) }
  if longer.overflows then .refused .outOfRange else .more ⟨.power, longer⟩

def step (n : Numeral) (b : UInt8) : Step :=
  let l := n.literal
  match n.part, digit? b with
  | .sign, some 0 => .more ⟨.zero, { l with whole := [0] }⟩
  | .sign, some digit => .more ⟨.whole, { l with whole := [digit] }⟩
  | .sign, none => .refused .invalidNumber
  | .zero, some _ => .refused .invalidNumber
  | .zero, none => afterWhole l b
  | .whole, some digit => .more ⟨.whole, { l with whole := digit :: l.whole }⟩
  | .whole, none => afterWhole l b
  | .point, some digit => .more ⟨.fraction, { l with fraction := [digit] }⟩
  | .point, none => .refused .invalidNumber
  | .fraction, some digit => .more ⟨.fraction, { l with fraction := digit :: l.fraction }⟩
  | .fraction, none => if isMark b then .more ⟨.mark, l⟩ else .ended
  | .mark, some digit => powerDigit l digit
  | .mark, none => afterMark l b
  | .markSign, some digit => powerDigit l digit
  | .markSign, none => .refused .invalidNumber
  | .power, some digit => powerDigit l digit
  | .power, none => .ended

def finish (n : Numeral) : Except Reason Number :=
  match n.part with
  | .sign | .point | .mark | .markSign => .error .endInValue
  | .zero | .whole | .fraction | .power => match n.literal.number? with
    | some found => .ok found
    | none => .error .outOfRange

end Numeral

end ClientHints.Json
