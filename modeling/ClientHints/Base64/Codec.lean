import ClientHints.Text

set_option autoImplicit false

namespace ClientHints.Base64

def pad : UInt8 := 0x3D

def letter (value : Nat) : UInt8 :=
  if value < 26 then UInt8.ofNat (0x41 + value)
  else if value < 52 then UInt8.ofNat (0x61 + (value - 26))
  else if value < 62 then UInt8.ofNat (0x30 + (value - 52))
  else if value = 62 then 0x2B
  else 0x2F

def value? (b : UInt8) : Option Nat :=
  if 0x41 ≤ b && b ≤ 0x5A then some (b.toNat - 0x41)
  else if 0x61 ≤ b && b ≤ 0x7A then some (b.toNat - 0x61 + 26)
  else if 0x30 ≤ b && b ≤ 0x39 then some (b.toNat - 0x30 + 52)
  else if b = 0x2B then some 62
  else if b = 0x2F then some 63
  else none

inductive Symbol where
  | sextet (value : Nat)
  | padding
deriving DecidableEq, Repr

def symbol? (b : UInt8) : Option Symbol :=
  if b = pad then some .padding else (value? b).map .sextet

inductive Fault where
  | invalidByte (byte : UInt8) (offset : Nat)
  | invalidLength (length : Nat)
  | invalidPadding (offset : Nat)
  | nonCanonical (offset : Nat)
deriving DecidableEq, Repr

def hexPair (b : UInt8) : String :=
  String.ofList [Nat.digitChar (b.toNat / 16), Nat.digitChar (b.toNat % 16)]

def Fault.message : Fault → String
  | .invalidByte byte offset => "invalid byte 0x" ++ hexPair byte ++ " at offset " ++ toString offset
  | .invalidLength length => "length " ++ toString length ++ " is not a multiple of 4"
  | .invalidPadding offset => "misplaced padding at offset " ++ toString offset
  | .nonCanonical offset => "non-zero trailing bits at offset " ++ toString offset

def symbolAt (b : UInt8) (offset : Nat) : Except Fault Symbol :=
  match symbol? b with
  | some symbol => .ok symbol
  | none => .error (.invalidByte b offset)

def assemble (offset : Nat) (isLast : Bool) :
    Symbol → Symbol → Symbol → Symbol → Except Fault Bytes
  | .padding, _, _, _ => .error (.invalidPadding offset)
  | .sextet _, .padding, _, _ => .error (.invalidPadding (offset + 1))
  | .sextet a, .sextet b, .padding, .padding =>
    if !isLast then .error (.invalidPadding (offset + 2))
    else if b % 16 ≠ 0 then .error (.nonCanonical (offset + 1))
    else .ok [UInt8.ofNat (a * 4 + b / 16)]
  | .sextet _, .sextet _, .padding, .sextet _ => .error (.invalidPadding (offset + 2))
  | .sextet a, .sextet b, .sextet c, .padding =>
    if !isLast then .error (.invalidPadding (offset + 3))
    else if c % 4 ≠ 0 then .error (.nonCanonical (offset + 2))
    else .ok [UInt8.ofNat (a * 4 + b / 16), UInt8.ofNat (b % 16 * 16 + c / 4)]
  | .sextet a, .sextet b, .sextet c, .sextet d =>
    .ok [UInt8.ofNat (a * 4 + b / 16), UInt8.ofNat (b % 16 * 16 + c / 4), UInt8.ofNat (c % 4 * 64 + d)]

-- An octet outside the alphabet is found before any padding.
def quantum (offset : Nat) (isLast : Bool) (a b c d : UInt8) : Except Fault Bytes := do
  let first ← symbolAt a offset
  let second ← symbolAt b (offset + 1)
  let third ← symbolAt c (offset + 2)
  let fourth ← symbolAt d (offset + 3)
  assemble offset isLast first second third fourth

-- Decodes from a quantum on, after the octets already decoded, newest first.
def decodeFrom (decoded : Bytes) (offset : Nat) : Bytes → Except Fault Bytes
  | a :: b :: c :: d :: rest =>
    match quantum offset rest.isEmpty a b c d with
    | .ok octets => decodeFrom (octets.reverse ++ decoded) (offset + 4) rest
    | .error fault => .error fault
  | [] => .ok decoded.reverse
  | few => .error (.invalidLength (offset + few.length))

def decode (text : Bytes) : Except Fault Bytes :=
  if text.length % 4 ≠ 0 then .error (.invalidLength text.length) else decodeFrom [] 0 text

def encodeFrom (written : Bytes) : Bytes → Bytes
  | a :: b :: c :: rest =>
    encodeFrom (letter (c.toNat % 64) :: letter (b.toNat % 16 * 4 + c.toNat / 64) ::
      letter (a.toNat % 4 * 16 + b.toNat / 16) :: letter (a.toNat / 4) :: written) rest
  | [a, b] =>
    (pad :: letter (b.toNat % 16 * 4) :: letter (a.toNat % 4 * 16 + b.toNat / 16) ::
      letter (a.toNat / 4) :: written).reverse
  | [a] =>
    (pad :: pad :: letter (a.toNat % 4 * 16) :: letter (a.toNat / 4) :: written).reverse
  | [] => written.reverse

def encode (octets : Bytes) : Bytes :=
  encodeFrom [] octets

def encodeText (octets : Bytes) : String :=
  String.ofList ((encode octets).map fun b => Char.ofNat b.toNat)

end ClientHints.Base64
