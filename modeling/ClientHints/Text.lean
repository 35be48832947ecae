/-!
Octets, their text, and its white space. Decoding UTF-8 is strict: an overlong form, a surrogate, a value above U+10FFFF
or a form cut short ends the part that can be read, and the length of that part is reported.
-/

set_option autoImplicit false

namespace ClientHints

abbrev Bytes := List UInt8

namespace Utf8

def encode (text : String) : Bytes :=
  text.toByteArray.data.toList

def isTail (b : UInt8) : Bool :=
  0x80 ≤ b && b ≤ 0xBF

def payload (b : UInt8) : Nat :=
  b.toNat - 0x80

def pair? (a b : UInt8) : Option Char :=
  if 0xC2 ≤ a && a ≤ 0xDF && isTail b then
    some (Char.ofNat ((a.toNat - 0xC0) * 64 + payload b))
  else none

def triple? (a b c : UInt8) : Option Char :=
  let point := (a.toNat - 0xE0) * 4096 + payload b * 64 + payload c
  if 0xE0 ≤ a && a ≤ 0xEF && isTail b && isTail c && 0x800 ≤ point
      && !(0xD800 ≤ point && point ≤ 0xDFFF) then
    some (Char.ofNat point)
  else none

def quadruple? (a b c d : UInt8) : Option Char :=
  let point := (a.toNat - 0xF0) * 262144 + payload b * 4096 + payload c * 64 + payload d
  if 0xF0 ≤ a && a ≤ 0xF4 && isTail b && isTail c && isTail d && 0x10000 ≤ point
      && point ≤ 0x10FFFF then
    some (Char.ofNat point)
  else none

-- Reads on from the characters already read, newest first, that took `length` octets.
def decodeFrom (read : List Char) (length : Nat) : Bytes → Except Nat (List Char)
  | [] => .ok read.reverse
  | a :: afterA =>
    if a < 0x80 then decodeFrom (Char.ofNat a.toNat :: read) (length + 1) afterA
    else match afterA with
      | [] => .error length
      | b :: afterB => match pair? a b with
        | some c => decodeFrom (c :: read) (length + 2) afterB
        | none => match afterB with
          | [] => .error length
          | c :: afterC => match triple? a b c with
            | some x => decodeFrom (x :: read) (length + 3) afterC
            | none => match afterC with
              | [] => .error length
              | d :: afterD => match quadruple? a b c d with
                | some x => decodeFrom (x :: read) (length + 4) afterD
                | none => .error length

def decode (octets : Bytes) : Except Nat String :=
  (decodeFrom [] 0 octets).map String.ofList

end Utf8

namespace Blank

-- The code points with the Unicode property White_Space.
def ranges : List (Nat × Nat) :=
  [(0x09, 0x0D), (0x20, 0x20), (0x85, 0x85), (0xA0, 0xA0), (0x1680, 0x1680), (0x2000, 0x200A),
   (0x2028, 0x2029), (0x202F, 0x202F), (0x205F, 0x205F), (0x3000, 0x3000)]

def isBlank (c : Char) : Bool :=
  ranges.any fun (low, high) => low ≤ c.toNat && c.toNat ≤ high

def dropEnd (chars : List Char) : List Char :=
  (chars.reverse.dropWhile isBlank).reverse

def trimEnd (text : String) : String :=
  String.ofList (dropEnd text.toList)

def trim (text : String) : String :=
  String.ofList (dropEnd (text.toList.dropWhile isBlank))

end Blank

end ClientHints
